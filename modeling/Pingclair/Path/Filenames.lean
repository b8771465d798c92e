import Pingclair.Path.FileServer

/-!
# Names in a URL and names on disk

The file server (`resolvePath`) lets `..` climb back as far as the root; everybody else
(`resolveUnderRoot`) refuses it. Both decode each component with `decodePathComponent`, which
refuses an escaped separator or NUL but takes a raw one. The other way, `pushEncodedPath` writes a
name from the disk as the path of a URL. A path on disk is the list of its components.
-/

namespace Pingclair

open ByteText Percent List

/-- The loop of `resolveUnderRoot` over the components of the request path. -/
def underRootLoop : List Bytes → List Bytes → Option (List Bytes)
  | [], resolved => some resolved
  | component :: components, resolved =>
    if component = [] ∨ component = [dot] then underRootLoop components resolved
    else if component = [dot, dot] then none
    else if percent ∉ component then underRootLoop components (resolved ++ [component])
    else
      match decodePathComponent component [] with
      | none => none
      | some decoded =>
        if decoded = [] ∨ decoded = [dot] then underRootLoop components resolved
        else if decoded = [dot, dot] then none
        else underRootLoop components (resolved ++ [decoded])

def resolveUnderRoot (root : List Bytes) (path : Bytes) : Option (List Bytes) :=
  underRootLoop (path.splitOn slash) root

def isLiteral (byte : UInt8) : Bool :=
  isAsciiAlphanumeric byte || (ascii "-._~/!$&'()*+,;=:@").contains byte

def hexDigits : Bytes := ascii "0123456789ABCDEF"

def encodeByte (byte : UInt8) : Bytes :=
  if isLiteral byte then [byte]
  else [percent, hexDigits.getD (byte >>> 4).toNat 0, hexDigits.getD (byte &&& 0x0F).toNat 0]

/-- Appends a filename below a root to `out` as a URI path. -/
def pushEncodedPath (out bytes : Bytes) : Bytes :=
  bytes.foldl (fun out byte => out ++ encodeByte byte) out

/-- The bytes of a decoded component, each with whether it came from an escape. -/
def traced (component : Bytes) : List (UInt8 × Bool) :=
  match component with
  | [] => []
  | b :: rest =>
    match decodedByte (b :: rest) with
    | some byte => (byte, true) :: traced (rest.drop 2)
    | none => (b, false) :: traced rest
termination_by component.length
decreasing_by all_goals simp; try omega

def isForbidden (byte : UInt8) : Bool := byte = slash ∨ byte = Percent.backslash ∨ byte = 0

def nameOf (component : Bytes) : Bytes := (traced component).map Prod.fst

variable {b : UInt8} {component : Bytes}

theorem traced_cons_some {byte : UInt8} {rest : Bytes} (h : decodedByte (b :: rest) = some byte) :
    traced (b :: rest) = (byte, true) :: traced (rest.drop 2) := by
  rw [traced]
  simp [h]

theorem traced_cons_none {rest : Bytes} (h : decodedByte (b :: rest) = none) :
    traced (b :: rest) = (b, false) :: traced rest := by
  rw [traced]
  simp [h]

/-- A component is refused exactly for a forbidden byte that came from an escape. -/
theorem decodePathComponent_eq (c out : Bytes) :
    decodePathComponent c out =
      if (traced c).any (fun traced => traced.2 && isForbidden traced.1) then none
      else some (out ++ nameOf c) := by
  induction c, out using decodePathComponent.induct with
  | case1 out => simp [decodePathComponent, nameOf, traced]
  | case2 out b rest byte hb hbad =>
    rw [decodePathComponent]
    simp [hb, hbad, traced_cons_some hb, isForbidden]
  | case3 out b rest byte hb hgood ih =>
    have hfine : isForbidden byte = false := by simpa [isForbidden] using hgood
    rw [decodePathComponent]
    simp only [hb, hgood, if_false, ih, nameOf, traced_cons_some hb, any_cons, hfine,
      Bool.and_false, Bool.false_or, map_cons, append_assoc, singleton_append]
  | case4 out b rest hb ih =>
    rw [decodePathComponent]
    simp only [hb, ih, nameOf, traced_cons_none hb, any_cons, Bool.false_and, Bool.false_or,
      map_cons, append_assoc, singleton_append]

theorem decodePathComponent_eq_some_iff {name : Bytes} :
    decodePathComponent component [] = some name ↔
      (∀ byte, (byte, true) ∈ traced component → isForbidden byte = false) ∧
        name = nameOf component := by
  rw [decodePathComponent_eq, nil_append]
  constructor
  · intro h
    split at h
    · cases h
    · next hfine =>
      refine ⟨fun byte hmem => ?_, (Option.some.inj h).symm⟩
      by_contra hbad
      exact hfine (any_eq_true.mpr ⟨_, hmem, by simpa using hbad⟩)
  · rintro ⟨hfine, rfl⟩
    rw [if_neg]
    rw [any_eq_true]
    rintro ⟨⟨byte, e⟩, hmem, hbad⟩
    simp only [Bool.and_eq_true] at hbad
    obtain ⟨rfl, hbad⟩ := hbad
    simp [hfine byte hmem] at hbad

structure Names (component : Bytes) : Prop where
  ne_nil : nameOf component ≠ []
  ne_dot : nameOf component ≠ [dot]
  ne_dotdot : nameOf component ≠ [dot, dot]
  no_slash : slash ∉ nameOf component
  no_nul : (0, true) ∉ traced component
  no_backslash : (Percent.backslash, true) ∉ traced component

/-- The root, followed by what some components of the request path name. -/
def Confined (root : List Bytes) (path : Bytes) (file : List Bytes) : Prop :=
  ∃ components : List Bytes, components.Sublist (path.splitOn slash) ∧
    file = root ++ components.map nameOf ∧ ∀ component ∈ components, Names component

theorem names_of_decoded {name : Bytes} (hsl : slash ∉ component)
    (hdec : decodePathComponent component [] = some name) (hni : ¬(name = [] ∨ name = [dot]))
    (hdotdot : name ≠ [dot, dot]) : Names component ∧ name = nameOf component := by
  obtain ⟨hfine, rfl⟩ := decodePathComponent_eq_some_iff.mp hdec
  refine ⟨⟨fun h => hni (.inl h), fun h => hni (.inr h), hdotdot, ?_, ?_, ?_⟩, rfl⟩
  · exact slash_not_mem_decodePathComponent hsl not_mem_nil hdec
  · exact fun hmem => absurd (hfine _ hmem) (by decide)
  · exact fun hmem => absurd (hfine _ hmem) (by decide)

/-- The loop of the file server takes nothing off the root: below it, a part of what was there
stays and the names of some components follow. -/
theorem resolveLoop_below {comps : List Bytes} (hsl : ∀ comp ∈ comps, slash ∉ comp)
    {root below file : List Bytes}
    (h : resolveLoop comps (root ++ below) below.length = some file) :
    ∃ (kept : Nat) (cs : List Bytes), kept ≤ below.length ∧ cs.Sublist comps ∧
      file = root ++ (below.take kept ++ cs.map nameOf) ∧
      ∀ component ∈ cs, Names component := by
  induction comps generalizing below with
  | nil =>
    obtain rfl := Option.some.inj h
    exact ⟨below.length, [], Nat.le_refl _, .slnil, by simp, by simp⟩
  | cons comp comps ih =>
    have htl : ∀ c ∈ comps, slash ∉ c := (forall_mem_cons.mp hsl).2
    rw [resolveLoop, segment_eq] at h
    cases hdec : decodePathComponent comp [] with
    | none => simp [hdec] at h
    | some s =>
      simp only [hdec] at h
      by_cases hsk : s = [] ∨ s = [dot]
      · rw [if_pos hsk] at h
        obtain ⟨kept, cs, hkp, hsub, hfl, hns⟩ := ih htl h
        exact ⟨kept, cs, hkp, hsub.cons _, hfl, hns⟩
      · rw [if_neg hsk] at h
        by_cases hup : s = [dot, dot]
        · rw [if_pos hup] at h
          by_cases hdepth : below.length = 0
          · simp [hdepth] at h
          · rw [if_neg hdepth, dropLast_append_of_ne_nil (by simpa using hdepth),
              ← length_dropLast] at h
            obtain ⟨kept, cs, hkp, hsub, hfl, hns⟩ := ih htl h
            rw [length_dropLast] at hkp
            refine ⟨kept, cs, by omega, hsub.cons _, ?_, hns⟩
            rw [hfl, dropLast_eq_take, take_take, Nat.min_eq_left hkp]
        · rw [if_neg hup, append_assoc] at h
          obtain ⟨hn, rfl⟩ := names_of_decoded (hsl comp mem_cons_self) hdec hsk hup
          have hlen : below.length + 1 = (below ++ [nameOf comp]).length := by simp
          rw [hlen] at h
          obtain ⟨kept, cs, hkp, hsub, hfl, hns⟩ := ih htl h
          -- the new name was popped again, or it stays
          rcases Nat.lt_or_ge below.length kept with hstays | hpopped
          · have ha : kept = (below ++ [nameOf comp]).length := by omega
            refine ⟨below.length, comp :: cs, Nat.le_refl _, hsub.cons_cons _, ?_, ?_⟩
            · rw [hfl, ha, take_length]
              simp
            · rintro component (_ | ⟨_, hmem⟩)
              · exact hn
              · exact hns component hmem
          · refine ⟨kept, cs, hpopped, hsub.cons _, ?_, hns⟩
            rw [hfl, take_append_of_le_length hpopped]

theorem confined_of_resolvePath {root file : List Bytes} {path : Bytes}
    (h : resolvePath root path = some file) : Confined root path file := by
  have hsl : ∀ comp ∈ path.splitOn slash, slash ∉ comp :=
    fun comp hcomp => not_mem_of_mem_splitOn hcomp
  have hlp : resolveLoop (path.splitOn slash) (root ++ []) ([] : List Bytes).length =
      some file := by
    rwa [append_nil]
  obtain ⟨k, cs, -, hsub, hfl, hns⟩ := resolveLoop_below hsl hlp
  exact ⟨cs, hsub, by simpa using hfl, hns⟩

def climbs (component : Bytes) : Bool := decodePathComponent component [] = some [dot, dot]

/-- The two loops differ in what climbs. -/
theorem underRootLoop_eq (comps resolved : List Bytes) (depth : Nat) :
    underRootLoop comps resolved =
      if comps.any climbs then none else resolveLoop comps resolved depth := by
  induction comps generalizing resolved depth with
  | nil => rfl
  | cons comp comps ih =>
    have hraw (hpl : percent ∉ comp) : decodePathComponent comp [] = some comp := by
      rw [decodePathComponent_of_not_mem hpl, nil_append]
    rw [underRootLoop, resolveLoop, segment_eq, any_cons]
    by_cases hnil : comp = [] ∨ comp = [dot]
    · have hpl : percent ∉ comp := by rcases hnil with rfl | rfl <;> decide
      have hcomp : climbs comp = false := by rcases hnil with rfl | rfl <;> decide +kernel
      simp only [hnil, if_true, hraw hpl, hcomp, Bool.false_or]
      exact ih resolved depth
    · rw [if_neg hnil]
      by_cases hup : comp = [dot, dot]
      · have hcomp : climbs comp = true := by rw [hup]; decide +kernel
        simp [hup, hup ▸ hcomp]
      · rw [if_neg hup]
        by_cases hpl : percent ∈ comp
        · rw [if_neg (not_not.mpr hpl)]
          cases hdec : decodePathComponent comp [] with
          | none => simp
          | some decoded =>
            by_cases hskip : decoded = [] ∨ decoded = [dot]
            · have hcomp : climbs comp = false := by
                rw [climbs, hdec]
                rcases hskip with rfl | rfl <;> decide
              simp only [hskip, if_true, hcomp, Bool.false_or]
              exact ih resolved depth
            · by_cases hdots : decoded = [dot, dot]
              · simp [climbs, hdec, hdots]
              · have hcomp : climbs comp = false := by simpa [climbs, hdec] using hdots
                simp only [hskip, if_false, hdots, hcomp, Bool.false_or]
                exact ih _ (depth + 1)
        · have hcomp : climbs comp = false := by simpa [climbs, hraw hpl] using hup
          simp only [hpl, not_false_eq_true, if_true, hraw hpl, hnil, if_false, hup, hcomp,
            Bool.false_or]
          exact ih _ (depth + 1)

theorem resolveUnderRoot_eq (root : List Bytes) (path : Bytes) :
    resolveUnderRoot root path =
      if (path.splitOn slash).any climbs then none else resolvePath root path :=
  underRootLoop_eq _ _ 0

/-- Whatever the root and the request path: what a resolver answers is the root followed by names
that are neither empty nor dots, and hold no separator, nor a NUL or backslash from an escape.
When both answer they answer the same, and `resolveUnderRoot` refuses beside what the file server
refuses exactly the paths with a component that climbs. -/
theorem root_confined (root : List Bytes) (path : Bytes) :
    (∀ file, resolvePath root path = some file → Confined root path file) ∧
      (∀ file, resolveUnderRoot root path = some file → Confined root path file) ∧
      (∀ served resolved, resolvePath root path = some served →
        resolveUnderRoot root path = some resolved → served = resolved) ∧
      (resolveUnderRoot root path = none ↔
        resolvePath root path = none ∨
          ∃ component ∈ path.splitOn slash,
            decodePathComponent component [] = some [dot, dot]) := by
  have hclimbs : (path.splitOn slash).any climbs = true ↔
      ∃ component ∈ path.splitOn slash, decodePathComponent component [] = some [dot, dot] := by
    simp [climbs]
  have hsm {resolved : List Bytes} (h : resolveUnderRoot root path = some resolved) :
      resolvePath root path = some resolved := by
    rw [resolveUnderRoot_eq] at h
    split at h
    · cases h
    · exact h
  refine ⟨fun file => confined_of_resolvePath, ?_, ?_, ?_⟩
  · intro file h
    exact confined_of_resolvePath (hsm h)
  · intro served resolved hsvd hresolved
    exact Option.some.inj (hsvd.symm.trans (hsm hresolved))
  · rw [resolveUnderRoot_eq, ← hclimbs]
    split
    · next hup => simp [hup]
    · next hflat => simp [hflat]

theorem pushEncodedPath_eq (out bytes : Bytes) :
    pushEncodedPath out bytes = out ++ bytes.flatMap encodeByte := by
  induction bytes generalizing out with
  | nil => simp [pushEncodedPath]
  | cons b bytes ih =>
    have hfo : pushEncodedPath out (b :: bytes) = pushEncodedPath (out ++ encodeByte b) bytes :=
      rfl
    rw [hfo, ih, flatMap_cons, append_assoc]

theorem traced_encodeByte (b : UInt8) (rest : Bytes) :
    traced (encodeByte b ++ rest) = (b, !isLiteral b) :: traced rest := by
  rw [encodeByte]
  cases hlit : isLiteral b with
  | true =>
    have hne : b ≠ percent := by
      rintro rfl
      exact absurd hlit (by decide)
    refine traced_cons_none ?_
    rw [decodedByte_eq_read]
    exact Escape.read_cons_of_ne hne
  | false =>
    have hrd : ∀ b : UInt8, hexPair (hexDigits.getD (b >>> 4).toNat 0)
        (hexDigits.getD (b &&& 0x0F).toNat 0) = some b := forall_byte (by decide +kernel)
    rw [if_neg (by decide), cons_append, cons_append, cons_append]
    refine traced_cons_some ?_
    simp only [decodedByte, if_true, hrd b]

theorem traced_encode (bs : Bytes) :
    traced (bs.flatMap encodeByte) = bs.map fun b => (b, !isLiteral b) := by
  induction bs with
  | nil => simp [traced]
  | cons b bs ih => rw [flatMap_cons, traced_encodeByte, ih, map_cons]

theorem nameOf_encode (bytes : Bytes) : nameOf (bytes.flatMap encodeByte) = bytes := by
  rw [nameOf, traced_encode, map_map]
  exact bytes.map_id

/-- An encoded component reads back as it was, unless it holds a NUL or a backslash. -/
theorem decodePathComponent_encode (hsl : slash ∉ component) (name : Bytes) :
    decodePathComponent (component.flatMap encodeByte) [] = some name ↔
      name = component ∧ 0 ∉ component ∧ Percent.backslash ∉ component := by
  rw [decodePathComponent_eq_some_iff, nameOf_encode, traced_encode]
  constructor
  · rintro ⟨hfine, rfl⟩
    refine ⟨rfl, fun hmem => ?_, fun hmem => ?_⟩
    · have := hfine 0 (mem_map.mpr ⟨0, hmem, by decide⟩)
      exact absurd this (by decide)
    · have := hfine Percent.backslash (mem_map.mpr ⟨Percent.backslash, hmem, by decide⟩)
      exact absurd this (by decide)
  · rintro ⟨rfl, hnul, hback⟩
    refine ⟨fun byte hmem => ?_, rfl⟩
    obtain ⟨b, hb, heq⟩ := mem_map.mp hmem
    obtain rfl : b = byte := congrArg Prod.fst heq
    have hne : b ≠ slash ∧ b ≠ Percent.backslash ∧ b ≠ 0 := by
      refine ⟨?_, ?_, ?_⟩ <;> rintro rfl <;> contradiction
    simp [isForbidden, hne]

/-- A byte of the text of a URL: no query or fragment starts there, and it is neither white space
nor a control character. -/
def IsPlain (c : UInt8) : Prop :=
  c < 0x80 ∧ c ≠ question ∧ c ≠ 0x23 ∧ c ≠ Percent.backslash ∧ isAsciiWhitespace c = false ∧
    ¬(c < 0x20 ∨ c = 0x7F)

instance (c : UInt8) : Decidable (IsPlain c) :=
  inferInstanceAs (Decidable (_ ∧ _))

theorem mem_encodeByte {c : UInt8} (h : c ∈ encodeByte b) :
    c = b ∧ isLiteral b = true ∨ c = percent ∨ c ∈ hexDigits := by
  have hdg : ∀ n : Fin 16, hexDigits.getD n.val 0 ∈ hexDigits := by decide +kernel
  have hhigh : ∀ b : UInt8, (b >>> 4).toNat < 16 := forall_byte (by decide +kernel)
  have hlo : ∀ b : UInt8, (b &&& 0x0F).toNat < 16 := forall_byte (by decide +kernel)
  rw [encodeByte] at h
  split at h
  · next hlit => exact .inl ⟨mem_singleton.mp h, hlit⟩
  · simp only [mem_cons, not_mem_nil, or_false] at h
    rcases h with rfl | rfl | rfl
    · exact .inr (.inl rfl)
    · exact .inr (.inr (hdg ⟨_, hhigh b⟩))
    · exact .inr (.inr (hdg ⟨_, hlo b⟩))

theorem isPlain_of_isLiteral (h : isLiteral b = true) : IsPlain b := by
  have halnum : ∀ b : UInt8, isAsciiAlphanumeric b = true → IsPlain b :=
    forall_byte (by decide +kernel)
  have hmarks : ∀ b ∈ ascii "-._~/!$&'()*+,;=:@", IsPlain b := by decide +kernel
  rw [isLiteral, Bool.or_eq_true] at h
  rcases h with h | h
  · exact halnum b h
  · exact hmarks b (contains_iff_mem.mp h)

theorem isPlain_encodeByte {c : UInt8} (h : c ∈ encodeByte b) : IsPlain c := by
  have hdg : ∀ b ∈ hexDigits, IsPlain b := by decide +kernel
  rcases mem_encodeByte h with ⟨rfl, hlit⟩ | rfl | hdigit
  · exact isPlain_of_isLiteral hlit
  · decide
  · exact hdg c hdigit

theorem slash_not_mem_encode {bs : Bytes} (h : slash ∉ bs) : slash ∉ bs.flatMap encodeByte := by
  have hdg : slash ∉ hexDigits := by decide
  intro hmem
  obtain ⟨b, hb, hsl⟩ := mem_flatMap.mp hmem
  rcases mem_encodeByte hsl with ⟨rfl, -⟩ | hpct | hdigit
  · exact h hb
  · exact absurd hpct (by decide)
  · exact hdg hdigit

theorem splitOn_encode (bs : Bytes) :
    (bs.flatMap encodeByte).splitOn slash = (bs.splitOn slash).map (List.flatMap encodeByte) := by
  obtain ⟨seg, ss, rfl, hsg, hss⟩ := exists_append_rooted slash bs
  have hroo : (rooted slash ss).flatMap encodeByte =
      rooted slash (ss.map (List.flatMap encodeByte)) := by
    have hsl : encodeByte slash = [slash] := by decide
    simp [rooted, flatMap_assoc, flatMap_map, hsl]
  rw [flatMap_append, hroo, splitOn_append_rooted hsg hss,
    splitOn_append_rooted (slash_not_mem_encode hsg), map_cons]
  intro x hx
  obtain ⟨seg', hsg', rfl⟩ := mem_map.mp hx
  exact slash_not_mem_encode (hss seg' hsg')

theorem mapM_decode_encode {cs : List Bytes} (hsl : ∀ c ∈ cs, slash ∉ c) (names : List Bytes) :
    (cs.map (List.flatMap encodeByte)).mapM (decodePathComponent · []) = some names ↔
      names = cs ∧ ∀ c ∈ cs, 0 ∉ c ∧ Percent.backslash ∉ c := by
  induction cs generalizing names with
  | nil => simp [eq_comm]
  | cons c cs ih =>
    have hc := decodePathComponent_encode (hsl c mem_cons_self)
    have htl := ih (forall_mem_cons.mp hsl).2
    simp only [map_cons, mapM_cons, Option.bind_eq_bind, Option.bind_eq_some_iff, hc,
      htl, Option.pure_def, Option.some.injEq]
    constructor
    · rintro ⟨name, ⟨rfl, hfine⟩, rest, ⟨rfl, hrest⟩, rfl⟩
      exact ⟨rfl, forall_mem_cons.mpr ⟨hfine, hrest⟩⟩
    · rintro ⟨rfl, ha⟩
      obtain ⟨hfine, hrest⟩ := forall_mem_cons.mp ha
      exact ⟨c, ⟨rfl, hfine⟩, cs, ⟨rfl, hrest⟩, rfl⟩

/-- A name written into a URL is plain text. Split at `/` and decoded, it gives the components of
the name, unless one of them holds a NUL or a backslash, and then nothing. Different names are
written differently. -/
theorem encodedPath_decodes (bytes : Bytes) :
    (∀ c ∈ pushEncodedPath [] bytes, IsPlain c) ∧
      (∀ names, ((pushEncodedPath [] bytes).splitOn slash).mapM (decodePathComponent · []) =
          some names ↔
        names = bytes.splitOn slash ∧ ∀ c ∈ bytes.splitOn slash, 0 ∉ c ∧ Percent.backslash ∉ c) ∧
      ∀ other, pushEncodedPath [] other = pushEncodedPath [] bytes → other = bytes := by
  rw [pushEncodedPath_eq, nil_append]
  refine ⟨fun c hc => ?_, fun names => ?_, fun other heq => ?_⟩
  · obtain ⟨b, -, hb⟩ := mem_flatMap.mp hc
    exact isPlain_encodeByte hb
  · rw [splitOn_encode]
    exact mapM_decode_encode (fun c hc => not_mem_of_mem_splitOn hc) names
  · rw [pushEncodedPath_eq, nil_append] at heq
    rw [← nameOf_encode other, heq, nameOf_encode]

end Pingclair
