import Pingclair.Path.DotSegments
import Pingclair.Path.Percent

/-!
# Normalizing a request path

`normalizeRequestPath` decodes the escapes of unreserved bytes, resolves dot segments and collapses
a leading run of slashes; it answers `none` when that changes nothing. The decoding is one pass, so
a plain `%` followed by escaped hex digits comes out as an escape.
-/

namespace Pingclair

open ByteText Percent List

def isAsciiAlphanumeric (b : UInt8) : Bool :=
  (0x30 ≤ b && b ≤ 0x39) || (0x41 ≤ b && b ≤ 0x5A) || (0x61 ≤ b && b ≤ 0x7A)

/-- RFC 3986 §2.3 `unreserved`. -/
def isUnreserved (b : UInt8) : Bool :=
  isAsciiAlphanumeric b || b == 0x2D || b == dot || b == 0x5F || b == 0x7E

/-- The byte a three-character escape at the front of `bytes` stands for, when that byte
is unreserved. -/
def decodedUnreserved : Bytes → Option UInt8
  | mark :: high :: low :: _ =>
    if mark = percent then (hexPair high low).filter isUnreserved else none
  | _ => none

/-- The loop of `decodeUnreservedEscapes` over what is left of the path. `before` is the
path up to there, the seed of the output at its first escape; anything that is no escape
advances by a whole character. -/
def decodeUnreservedLoop (before rest : Bytes) (out : Option Bytes) : Option Bytes :=
  if _hne : rest = [] then out
  else
    match decodedUnreserved rest with
    | some byte =>
      decodeUnreservedLoop (before ++ rest.take 3) (rest.drop 3) (some (out.getD before ++ [byte]))
    | none =>
      let character := Utf8.firstChar rest
      decodeUnreservedLoop (before ++ character) (rest.drop character.length)
        (out.map (· ++ character))
termination_by rest.length
decreasing_by
  · have := length_pos_iff.mpr _hne
    simp only [length_drop]
    omega
  · obtain ⟨b, rest', rfl⟩ := exists_cons_of_ne_nil _hne
    simp only [Utf8.firstChar, length_cons, length_drop]
    omega

/-- Decodes escapes whose byte is unreserved, leaving every other escape alone. `none`
when there was nothing to do. -/
def decodeUnreservedEscapes (path : Bytes) : Option Bytes :=
  if percent ∉ path then none else decodeUnreservedLoop [] path none

/-- Resolves `.` and `..` in a request path, the query set aside. -/
def normalizeRequestPath (path : Bytes) : Option Bytes :=
  let (rawPath, query) := match splitOnce question path with
    | some (rawPath, query) => (rawPath, some query)
    | none => (path, none)
  let decoded := decodeUnreservedEscapes rawPath
  let source := decoded.getD rawPath
  let needsWork := decoded.isSome || decide ([slash, slash] <:+: source) ||
    (source.splitOn slash).any fun segment => segment = [dot] || segment = [dot, dot]
  if !needsWork then none
  else
    let out := removeDotSegments source
    -- only a leading run collapses
    let leading := out.length - (out.dropWhile (· == slash)).length
    let out := if leading > 1 then slash :: out.drop leading else out
    let out := if out = [] then [slash] else out
    let out := match query with
      | some query => out ++ question :: query
      | none => out
    if out ≠ path then some out else none

def unreservedEscape : Escape UInt8 where
  mark := percent
  value high low := (hexPair high low).filter isUnreserved
  value_mark_left _ := by rw [hexPair_of_left (by decide)]; rfl
  value_mark_right _ := by rw [hexPair_of_right (by decide)]; rfl

theorem decodedUnreserved_eq_read (s : Bytes) : decodedUnreserved s = unreservedEscape.read s := by
  match s with
  | [] | [_] | [_, _] => rfl
  | m :: x :: y :: s => rfl

theorem unreservedEscape_cuts {sep : UInt8} (hhex : hexDigit sep = none) (hne : sep ≠ percent) :
    unreservedEscape.Cuts sep where
  left _ := by simp only [unreservedEscape, hexPair_of_left hhex]; rfl
  right _ := by simp only [unreservedEscape, hexPair_of_right hhex]; rfl
  ne_mark := hne

theorem unreservedEscape_value_ne_mark (x y : UInt8) :
    unreservedEscape.value x y ≠ some unreservedEscape.mark := by
  intro h
  have := (Option.filter_eq_some_iff.mp h).2
  exact absurd this (by decide)

/-- The loop decodes what is left of the path, behind what it was seeded with. -/
theorem decodeUnreservedLoop_eq (before rest : Bytes) (out : Option Bytes) :
    decodeUnreservedLoop before rest out =
      if out.isSome || unreservedEscape.occurs rest then
        some (out.getD before ++ unreservedEscape.decode rest)
      else none := by
  induction before, rest, out using decodeUnreservedLoop.induct with
  | case1 before out =>
    rw [decodeUnreservedLoop]
    cases out <;> simp [Escape.occurs]
  | case2 before rest out hne byte hby ih =>
    obtain ⟨b, rest, rfl⟩ := exists_cons_of_ne_nil hne
    have hrd := (decodedUnreserved_eq_read _).symm.trans hby
    rw [decodeUnreservedLoop, hby]
    simp only [ih, Option.isSome_some, Bool.true_or, if_true, Option.getD_some]
    rw [Escape.decode_cons_some hrd]
    simp [Escape.occurs, hrd]
  | case3 before rest out hne hnone c ih =>
    obtain ⟨b, rest, rfl⟩ := exists_cons_of_ne_nil hne
    have hrd := (decodedUnreserved_eq_read _).symm.trans hnone
    -- the continuation bytes of the character are not escape characters
    have hcont : percent ∉ rest.takeWhile Utf8.isContinuation := by
      intro hmem
      exact absurd (mem_takeWhile_imp hmem) (by decide)
    have hsp : rest.takeWhile Utf8.isContinuation ++
        rest.drop (rest.takeWhile Utf8.isContinuation).length = rest :=
      prefix_iff_eq_append.mp (List.takeWhile_prefix _)
    have hdecode := Escape.decode_append_of_not_mem (e := unreservedEscape)
      (t := rest.drop (rest.takeWhile Utf8.isContinuation).length) hcont
    have hocc := Escape.occurs_append_of_not_mem (e := unreservedEscape)
      (t := rest.drop (rest.takeWhile Utf8.isContinuation).length) hcont
    rw [hsp] at hdecode hocc
    rw [decodeUnreservedLoop, hnone]
    simp only [c] at ih ⊢
    rw [ih, Escape.decode_cons_none hrd, Escape.occurs, hrd, hdecode, hocc]
    cases out <;> simp [Utf8.firstChar]

/-- Decoding the unreserved escapes of a path is one pass over them. -/
theorem decodeUnreservedEscapes_eq (path : Bytes) :
    decodeUnreservedEscapes path =
      if unreservedEscape.occurs path then some (unreservedEscape.decode path) else none := by
  rw [decodeUnreservedEscapes]
  split
  · next hn =>
    have hocc := Escape.occurs_append_of_not_mem (e := unreservedEscape) (t := []) hn
    rw [append_nil] at hocc
    simp [hocc, Escape.occurs]
  · rw [decodeUnreservedLoop_eq]
    simp

theorem decode_of_unreserved {s : Bytes} (hno : unreservedEscape.occurs s = false)
    (ha : ∀ b ∈ percentEscape.decode s, isUnreserved b = true) : percentEscape.decode s = s := by
  induction s using Escape.decode.induct percentEscape with
  | case1 => simp
  | case2 a s v hv ih =>
    obtain ⟨x, y, rest, heq, hva, -⟩ := Escape.read_eq_some hv
    have hunres : isUnreserved v = true := ha v (by simp [Escape.decode_cons_some hv])
    have hrd : unreservedEscape.read (a :: s) = some v := by
      rw [heq, show percentEscape.mark = unreservedEscape.mark from rfl, Escape.read]
      exact Option.filter_eq_some_iff.mpr ⟨hva, hunres⟩
    simp [Escape.occurs, hrd] at hno
  | case3 a s hv ih =>
    simp only [Escape.occurs, Bool.or_eq_false_iff] at hno
    rw [Escape.decode_cons_none hv] at ha ⊢
    rw [ih hno.2 (forall_mem_cons.mp ha).2]

theorem isDot_decode {seg : Bytes} (hno : unreservedEscape.occurs seg = false)
    (hd : isDot seg = false) : isDot (percentEscape.decode seg) = false := by
  by_contra h
  rw [Bool.not_eq_false] at h
  have hself : percentEscape.decode seg = seg := by
    have hd : isUnreserved dot = true := by decide
    refine decode_of_unreserved hno ?_
    rcases isDot_iff.mp h with h | h <;> rw [h] <;> simp [hd]
  rw [hself, hd] at h
  exact absurd h (by decide)

/-- The segments of an absolute path without the empty ones at its front; the path `/`
keeps its one empty segment. -/
def collapse (segs : List Bytes) : List Bytes :=
  match segs.dropWhile (· = []) with
  | [] => [[]]
  | seg :: segs => seg :: segs

variable {segs : List Bytes}

theorem dropWhile_rooted (h : ∀ seg ∈ segs, slash ∉ seg) :
    slash :: (rooted slash segs).dropWhile (· == slash) = rooted slash (collapse segs) := by
  induction segs with
  | nil => rfl
  | cons seg segs ih =>
    cases seg with
    | nil =>
      have := ih (forall_mem_cons.mp h).2
      simpa [collapse] using this
    | cons b seg =>
      have hb : b ≠ slash := by
        have := h (b :: seg) mem_cons_self
        simp only [mem_cons, not_or] at this
        exact Ne.symm this.1
      simp [collapse, hb]

/-- What the normalizer makes of the slashes at the front of a resolved path. -/
def collapseLeading (out : Bytes) : Bytes :=
  let leading := out.length - (out.dropWhile (· == slash)).length
  let out := if leading > 1 then slash :: out.drop leading else out
  if out = [] then [slash] else out

theorem collapseLeading_relative {b : UInt8} (hb : b ≠ slash) (s : Bytes) :
    collapseLeading (b :: s) = b :: s := by
  simp [collapseLeading, hb]

theorem collapseLeading_rooted (h : ∀ seg ∈ segs, slash ∉ seg) :
    collapseLeading (rooted slash segs) = rooted slash (collapse segs) := by
  rw [← dropWhile_rooted h]
  cases segs with
  | nil => rfl
  | cons seg segs =>
    rw [rooted_cons, cons_append]
    set rest := seg ++ rooted slash segs
    have hdr : (slash :: rest).dropWhile (· == slash) = rest.dropWhile (· == slash) := by simp
    have hsuf := dropWhile_suffix (l := rest) (· == slash)
    have hrest : rest.drop (rest.length - (rest.dropWhile (· == slash)).length) =
        rest.dropWhile (· == slash) := (suffix_iff_eq_drop.mp hsuf).symm
    have hlen : (slash :: rest).length - (rest.dropWhile (· == slash)).length =
        rest.length - (rest.dropWhile (· == slash)).length + 1 := by
      have := hsuf.length_le
      simp only [length_cons]
      omega
    rw [collapseLeading, hdr, hlen]
    simp only [drop_succ_cons, hrest]
    split
    · simp
    · next hlead =>
      -- one slash only: nothing was dropped
      have hnone : rest.length - (rest.dropWhile (· == slash)).length = 0 := by omega
      rw [hnone] at hrest
      simp [← hrest]

theorem length_collapseLeading_le (out : Bytes) :
    (collapseLeading out).length ≤ max 1 out.length := by
  simp only [collapseLeading]
  by_cases hlead : out.length - (out.dropWhile (· == slash)).length > 1
  · rw [if_pos hlead, if_neg (by simp), length_cons, length_drop]
    omega
  · rw [if_neg hlead]
    split
    · exact Nat.le_max_left ..
    · exact Nat.le_max_right ..

theorem mem_collapse {seg : Bytes} (h : seg ∈ collapse segs) : seg ∈ segs ∨ seg = [] := by
  rw [collapse] at h
  split at h
  · exact .inr (by simpa using h)
  · next heq =>
    rw [← heq] at h
    exact .inl ((dropWhile_sublist _).subset h)

theorem forall_mem_collapse {p : Bytes → Prop} (hni : p []) (segs : List Bytes) :
    (∀ seg ∈ collapse segs, p seg) ↔ ∀ seg ∈ segs, p seg := by
  induction segs with
  | nil => simpa [collapse] using hni
  | cons seg segs ih =>
    by_cases hsg : seg = []
    · simpa [collapse, hsg, hni] using ih
    · simp [collapse, hsg]

theorem collapse_collapse (segs : List Bytes) : collapse (collapse segs) = collapse segs := by
  induction segs with
  | nil => rfl
  | cons seg segs ih =>
    by_cases hsg : seg = []
    · simpa [collapse, hsg] using ih
    · simp [collapse, hsg]

theorem NoDots.collapseLeading {out : Bytes} (h : NoDots out) : NoDots (collapseLeading out) := by
  obtain ⟨seg, ss, rfl, hsg, hss⟩ := exists_append_rooted slash out
  cases seg with
  | nil =>
    rw [noDots_append_rooted hsg hss] at h
    rw [nil_append, collapseLeading_rooted hss]
    have hcoll : ∀ x ∈ collapse ss, slash ∉ x ∧ isDot x = false := by
      intro x hx
      rcases mem_collapse hx with hx | rfl
      · exact ⟨hss x hx, h x (mem_cons_of_mem _ hx)⟩
      · decide
    refine (noDots_append_rooted hsg fun x hx => (hcoll x hx).1).mpr ?_
    rintro x (_ | ⟨_, hx⟩)
    · decide
    · exact (hcoll x hx).2
  | cons b seg =>
    have hb : b ≠ slash := by
      simp only [mem_cons, not_or] at hsg
      exact Ne.symm hsg.1
    rwa [cons_append, collapseLeading_relative hb]

def pathPart (target : Bytes) : Bytes := ((splitOnce question target).map Prod.fst).getD target

def IsQuery (query : Bytes) : Prop := query = [] ∨ ∃ rest, query = question :: rest

variable {path query : Bytes}

theorem pathPart_append (hp : question ∉ path) (hq : IsQuery query) :
    pathPart (path ++ query) = path := by
  rcases hq with rfl | ⟨rest, rfl⟩
  · simp [pathPart, splitOnce_of_not_mem hp]
  · simp [pathPart, splitOnce_append hp]

theorem exists_path_query (target : Bytes) :
    ∃ path query, target = path ++ query ∧ question ∉ path ∧ IsQuery query := by
  cases h : splitOnce question target with
  | none => exact ⟨target, [], by simp, splitOnce_eq_none h, .inl rfl⟩
  | some p =>
    obtain ⟨path, rest⟩ := p
    obtain ⟨heq, hp⟩ := splitOnce_eq_some h
    exact ⟨path, question :: rest, heq, hp, .inr ⟨rest, rfl⟩⟩

def needsWork (path : Bytes) : Bool :=
  unreservedEscape.occurs path ||
    decide ([slash, slash] <:+: unreservedEscape.decode path) ||
    ((unreservedEscape.decode path).splitOn slash).any isDot

def normalPath (path : Bytes) : Bytes :=
  collapseLeading (removeDotSegments (unreservedEscape.decode path))

/-- The normalizer replaces the path when that changes it, and keeps the query. -/
theorem normalizeRequestPath_append (hp : question ∉ path) (hq : IsQuery query) :
    normalizeRequestPath (path ++ query) =
      if needsWork path ∧ normalPath path ≠ path then some (normalPath path ++ query)
      else none := by
  have hdec : (decodeUnreservedEscapes path).isSome = unreservedEscape.occurs path := by
    rw [decodeUnreservedEscapes_eq]
    split <;> simp_all
  have hsrc : (decodeUnreservedEscapes path).getD path = unreservedEscape.decode path := by
    rw [decodeUnreservedEscapes_eq]
    split
    · rfl
    · next h => simp [Escape.decode_of_not_occurs (by simpa using h)]
  have hwork : ((decodeUnreservedEscapes path).isSome ||
      decide ([slash, slash] <:+: (decodeUnreservedEscapes path).getD path) ||
      (((decodeUnreservedEscapes path).getD path).splitOn slash).any
        (fun s => s = [dot] || s = [dot, dot])) = needsWork path := by
    rw [hdec, hsrc]
    rfl
  rcases hq with rfl | ⟨rest, rfl⟩
  · rw [append_nil, normalizeRequestPath, splitOnce_of_not_mem hp]
    simp only [hwork]
    rw [hsrc]
    cases needsWork path with
    | false => simp
    | true => simp [normalPath, collapseLeading]
  · rw [normalizeRequestPath, splitOnce_append hp]
    simp only [hwork]
    rw [hsrc]
    cases needsWork path with
    | false => simp
    | true => simp [normalPath, collapseLeading]

theorem length_normalPath_lt (h : unreservedEscape.occurs path = true) :
    (normalPath path).length < path.length := by
  have hne : path ≠ [] := by
    rintro rfl
    simp [Escape.occurs] at h
  have hp := length_pos_iff.mpr (Escape.decode_ne_nil (e := unreservedEscape) hne)
  calc (normalPath path).length
      ≤ max 1 (removeDotSegments (unreservedEscape.decode path)).length :=
        length_collapseLeading_le _
    _ ≤ (unreservedEscape.decode path).length := by
        have := length_removeDotSegments_le (unreservedEscape.decode path)
        omega
    _ < path.length := Escape.length_decode_lt h

/-- A target that normalizing leaves alone holds neither an unreserved escape nor a dot
segment. -/
theorem no_escape_of_fixed (hp : question ∉ path)
    (hq : IsQuery query) (hfix : normalizeRequestPath (path ++ query) = none) :
    unreservedEscape.occurs path = false ∧ NoDots path := by
  rw [normalizeRequestPath_append hp hq, ite_eq_right_iff] at hfix
  by_cases hwork : needsWork path = true
  · have heq : normalPath path = path := by
      by_contra hne
      exact absurd (hfix ⟨hwork, hne⟩) (by simp)
    have hno : unreservedEscape.occurs path = false := by
      by_contra hocc
      have := length_normalPath_lt (Bool.not_eq_false _ ▸ hocc)
      rw [heq] at this
      exact Nat.lt_irrefl _ this
    refine ⟨hno, ?_⟩
    rw [← heq]
    exact (removeDotSegments_no_dots _).collapseLeading
  · simp only [needsWork, Bool.or_eq_true, not_or, Bool.not_eq_true] at hwork
    obtain ⟨⟨hno, -⟩, hdots⟩ := hwork
    rw [Escape.decode_of_not_occurs hno] at hdots
    exact ⟨hno, by simpa [NoDots] using hdots⟩

/-! ### The normalizer on an absolute path -/

theorem exists_rooted (habs : path.head? = some slash) :
    ∃ segs, path = rooted slash segs ∧ (∀ seg ∈ segs, slash ∉ seg) ∧ segs ≠ [] := by
  have hroo := rooted_tail_splitOn habs
  refine ⟨(path.splitOn slash).tail, hroo.symm, ?_, ?_⟩
  · exact fun seg hsg => not_mem_of_mem_splitOn (mem_of_mem_tail hsg)
  · intro htl
    rw [htl] at hroo
    simp [← hroo] at habs

def normalSegments (segs : List Bytes) : List Bytes :=
  collapse (resolveDots [] (segs.map unreservedEscape.decode))

variable {c : UInt8}

theorem not_mem_decode (hc : isUnreserved c = false) (h : ∀ seg ∈ segs, c ∉ seg) :
    ∀ seg ∈ segs.map unreservedEscape.decode, c ∉ seg := by
  intro seg hsg
  obtain ⟨raw, hraw, rfl⟩ := mem_map.mp hsg
  refine Escape.not_mem_decode ?_ (h raw hraw)
  intro x y hxy
  have := (Option.filter_eq_some_iff.mp hxy).2
  rw [hc] at this
  exact absurd this (by decide)

theorem not_mem_resolveDots (h : ∀ seg ∈ segs, c ∉ seg) : ∀ seg ∈ resolveDots [] segs, c ∉ seg := by
  intro seg hsg
  rcases mem_resolveDots hsg with hsg | hsg | rfl
  · exact absurd hsg not_mem_nil
  · exact h seg hsg
  · exact not_mem_nil

theorem not_mem_normalSegments (hc : isUnreserved c = false) (h : ∀ seg ∈ segs, c ∉ seg) :
    ∀ seg ∈ normalSegments segs, c ∉ seg := by
  intro seg hsg
  rcases mem_collapse hsg with hsg | rfl
  · exact not_mem_resolveDots (not_mem_decode hc h) seg hsg
  · exact not_mem_nil

theorem unreservedEscape_cuts_slash : unreservedEscape.Cuts slash :=
  unreservedEscape_cuts (by decide) (by decide)

theorem normalPath_rooted (h : ∀ seg ∈ segs, slash ∉ seg) :
    normalPath (rooted slash segs) = rooted slash (normalSegments segs) := by
  have hdec := not_mem_decode (c := slash) (by decide) h
  rw [normalPath, Escape.decode_rooted unreservedEscape_cuts_slash, removeDotSegments_rooted
    hdec, collapseLeading_rooted (not_mem_resolveDots hdec), normalSegments]

theorem isDot_normalSegments (h : ∀ seg ∈ segs, slash ∉ seg) :
    ∀ seg ∈ normalSegments segs, isDot seg = false := by
  have hdots : NoDots (normalPath (rooted slash segs)) :=
    (removeDotSegments_no_dots _).collapseLeading
  rw [normalPath_rooted h, NoDots, splitOn_rooted (not_mem_normalSegments (by decide) h)] at hdots
  exact (forall_mem_cons.mp hdots).2

theorem normalSegments_of_normal (hno : ∀ seg ∈ segs, unreservedEscape.occurs seg = false)
    (hdots : ∀ seg ∈ segs, isDot seg = false) (hcoll : collapse segs = segs) :
    normalSegments segs = segs := by
  have hma : segs.map unreservedEscape.decode = segs :=
    (map_congr_left fun seg hsg => Escape.decode_of_not_occurs (hno seg hsg)).trans segs.map_id
  rw [normalSegments, hma, resolveDots_of_no_dots hdots, nil_append, hcoll]

theorem collapse_of_single_slash (hne : segs ≠ [])
    (h : ¬[slash, slash] <:+: rooted slash segs) : collapse segs = segs := by
  match segs with
  | [] => exact absurd rfl hne
  | (b :: seg) :: segs => simp [collapse]
  | [[]] => rfl
  | [] :: seg :: segs =>
    exact absurd ⟨[], seg ++ rooted slash segs, by simp⟩ h

variable {query : Bytes}

section Rooted

variable (h : ∀ seg ∈ segs, slash ∉ seg) (hp : question ∉ rooted slash segs) (hq : IsQuery query)

include h hp hq

/-- An absolute path is normalized to its normal segments, whether or not there was work
to do. -/
theorem getD_normalizeRequestPath (hne : segs ≠ []) :
    (normalizeRequestPath (rooted slash segs ++ query)).getD (rooted slash segs ++ query) =
      rooted slash (normalSegments segs) ++ query := by
  rw [normalizeRequestPath_append hp hq, normalPath_rooted h]
  split
  · rfl
  · next hsk =>
    rw [Option.getD_none]
    by_cases hwork : needsWork (rooted slash segs) = true
    · have heq : rooted slash (normalSegments segs) = rooted slash segs := by tauto
      rw [heq]
    · simp only [needsWork, Bool.or_eq_true, not_or, Bool.not_eq_true,
        decide_eq_false_iff_not] at hwork
      obtain ⟨⟨hno, hdouble⟩, hdots⟩ := hwork
      rw [Escape.decode_of_not_occurs hno] at hdouble hdots
      rw [splitOn_rooted h] at hdots
      rw [Escape.occurs_rooted unreservedEscape_cuts_slash] at hno
      rw [normalSegments_of_normal (by simpa using hno) (by simpa [isDot] using hdots)
        (collapse_of_single_slash hne hdouble)]

/-- An absolute path that normalizing leaves alone has no run of slashes at its front. -/
theorem collapse_of_fixed (hne : segs ≠ [])
    (hfix : normalizeRequestPath (rooted slash segs ++ query) = none) : collapse segs = segs := by
  have heq := getD_normalizeRequestPath h hp hq hne
  rw [hfix, Option.getD_none, append_left_inj] at heq
  have hss : segs = normalSegments segs := by
    have hsp := congrArg (List.splitOn slash) heq
    rw [splitOn_rooted h, splitOn_rooted (not_mem_normalSegments (by decide) h)] at hsp
    exact (List.cons.inj hsp).2
  rw [hss]
  exact collapse_collapse _

/-- Normalizing leaves an absolute path alone exactly when its segments are normal. -/
theorem normalizeRequestPath_normalSegments :
    normalizeRequestPath (rooted slash (normalSegments segs) ++ query) = none ↔
      ∀ seg ∈ normalSegments segs, unreservedEscape.occurs seg = false := by
  have hqm : ∀ seg ∈ segs, question ∉ seg := (not_mem_rooted (by decide)).mp hp
  have hp' : question ∉ rooted slash (normalSegments segs) :=
    (not_mem_rooted (by decide)).mpr (not_mem_normalSegments (by decide) hqm)
  constructor
  · intro hfix
    have hno := (no_escape_of_fixed hp' hq hfix).1
    rw [Escape.occurs_rooted unreservedEscape_cuts_slash] at hno
    simpa using hno
  · intro hno
    have hnormal := normalSegments_of_normal hno (isDot_normalSegments h) (collapse_collapse _)
    rw [normalizeRequestPath_append hp' hq,
      normalPath_rooted (not_mem_normalSegments (by decide) h), hnormal]
    simp

end Rooted

theorem occurs_normalSegments (segs : List Bytes) :
    (∀ seg ∈ normalSegments segs, unreservedEscape.occurs seg = false) ↔
      ∀ seg ∈ (standing unreservedEscape.decode segs).1, unreservedEscape.spelled seg = false := by
  have hend : ∀ seg ∈ dotEnd (segs.map unreservedEscape.decode),
      unreservedEscape.occurs seg = false := by
    intro seg hsg
    rw [dotEnd] at hsg
    split at hsg
    · rw [mem_singleton.mp hsg]
      rfl
    · exact absurd hsg not_mem_nil
  rw [normalSegments, forall_mem_collapse (p := (unreservedEscape.occurs · = false)) rfl,
    resolveDots_map]
  simp only [take_nil, nil_append, forall_mem_append, forall_mem_map,
    Escape.occurs_decode unreservedEscape_value_ne_mark]
  exact and_iff_left hend

/-- A target that a second normalization leaves alone, and whose segments neither are
dots nor decode to them, as the path matchers and the file handlers decode. -/
structure Settled (target : Bytes) : Prop where
  fixed : normalizeRequestPath target = none
  plain : ∀ seg ∈ (pathPart target).splitOn slash, isDot seg = false
  matched : ∀ seg ∈ (pathPart target).splitOn slash, isDot (decodeForMatching seg) = false
  served : ∀ seg ∈ (pathPart target).splitOn slash, ∀ name,
    decodePathComponent seg [] = some name → isDot name = false

theorem isDot_lossy {s : Bytes} (h : Utf8.valid s = false) : isDot (Utf8.lossy s) = false := by
  by_contra hdot
  have hmem := Utf8.mem_lossy h
  rcases isDot_iff.mp (Bool.not_eq_false _ ▸ hdot) with hdot | hdot <;>
    rw [hdot] at hmem <;> exact absurd hmem (by decide)

/-- No segment of a target that normalizing leaves alone decodes to a dot. -/
theorem isDot_decode_of_fixed (hp : question ∉ path)
    (hq : IsQuery query) (hfix : normalizeRequestPath (path ++ query) = none) :
    ∀ seg ∈ path.splitOn slash, isDot (percentEscape.decode seg) = false := by
  obtain ⟨hno, hdots⟩ := no_escape_of_fixed hp hq hfix
  obtain ⟨seg, ss, rfl, hsg, hss⟩ := exists_append_rooted slash path
  rw [noDots_append_rooted hsg hss] at hdots
  rw [Escape.occurs_append_rooted unreservedEscape_cuts_slash] at hno
  have hocc : ∀ x ∈ seg :: ss, unreservedEscape.occurs x = false := by simpa using hno
  rw [splitOn_append_rooted hsg hss]
  exact fun x hx => isDot_decode (hocc x hx) (hdots x hx)

theorem settled_of_fixed {target : Bytes} (hfix : normalizeRequestPath target = none) :
    Settled target := by
  obtain ⟨p, q, rfl, hp, hq⟩ := exists_path_query target
  have hdec := isDot_decode_of_fixed hp hq hfix
  have hpr := pathPart_append hp hq
  refine ⟨hfix, ?_, ?_, ?_⟩ <;> rw [hpr]
  · exact (no_escape_of_fixed hp hq hfix).2
  · intro seg hsg
    have hqm : question ∉ seg := fun hmem => hp (mem_of_mem_splitOn hsg hmem)
    rw [decodeForMatching_path hqm]
    split
    · exact hdec seg hsg
    · next h => exact isDot_lossy (by simpa using (not_or.mp h).2)
  · intro seg hsg name hn
    rw [decodePathComponent_eq_some hn]
    exact hdec seg hsg

/-- Exactly when the normalized target is settled: no segment left standing by the dot
segments spells an unreserved escape with a plain `%` and digits that are themselves partly
escaped. -/
theorem settled_iff (target : Bytes) (habs : (pathPart target).head? = some slash) :
    Settled ((normalizeRequestPath target).getD target) ↔
      ∀ seg ∈ (standing unreservedEscape.decode ((pathPart target).splitOn slash).tail).1,
        unreservedEscape.spelled seg = false := by
  obtain ⟨p, q, rfl, hp, hq⟩ := exists_path_query target
  rw [pathPart_append hp hq] at habs ⊢
  obtain ⟨ss, rfl, hss, hne⟩ := exists_rooted habs
  rw [splitOn_rooted hss, tail_cons, getD_normalizeRequestPath hss hp hq hne,
    ← occurs_normalSegments, ← normalizeRequestPath_normalSegments hss hp hq]
  exact ⟨Settled.fixed, settled_of_fixed⟩

theorem settled_iff_dots :
    (pathPart (ascii "/a/%2e%2E//b?q")).head? = some slash ∧
      Settled ((normalizeRequestPath (ascii "/a/%2e%2E//b?q")).getD (ascii "/a/%2e%2E//b?q")) :=
  ⟨by decide +kernel,
    (settled_iff (ascii "/a/%2e%2E//b?q") (by decide +kernel)).mpr (by decide +kernel)⟩

/-- A `%` in front of an escaped digit: one pass leaves `/%2e%2e/x`, whose first segment
the matchers and the file handlers read as `..`, and which the next pass resolves. -/
theorem not_settled_escaped_digit :
    let target := ascii "/%%32e%%32e/x"
    (pathPart target).head? = some slash ∧
      normalizeRequestPath target = some (ascii "/%2e%2e/x") ∧
      normalizeRequestPath (ascii "/%2e%2e/x") = some (ascii "/x") ∧
      decodeForMatching (ascii "%2e%2e") = ascii ".." ∧
      decodePathComponent (ascii "%2e%2e") [] = some (ascii "..") ∧
      ¬Settled ((normalizeRequestPath target).getD target) := by
  have hf : normalizeRequestPath (ascii "/%%32e%%32e/x") = some (ascii "/%2e%2e/x") := by
    decide +kernel
  have hsecond : normalizeRequestPath (ascii "/%2e%2e/x") = some (ascii "/x") := by
    decide +kernel
  refine ⟨by decide +kernel, hf, hsecond, by decide +kernel, by decide +kernel, ?_⟩
  intro h
  have hfix := h.fixed
  rw [hf, Option.getD_some, hsecond] at hfix
  simp at hfix

/-- One more segment on a stack: `.` is dropped, `..` pops one and is absorbed at the root. -/
def pushSegment (stack : List Bytes) (seg : Bytes) : List Bytes :=
  if seg = [dot] then stack
  else if seg = [dot, dot] then stack.dropLast
  else stack ++ [seg]

/-- The normal form of an absolute target: the unreserved escapes decoded once, the segments
folded over a stack, where a dot at the end leaves an empty segment, the slashes at the front
made one, and the query as it was. -/
def normalTarget (target : Bytes) : Bytes :=
  let path := target.takeWhile (· != question)
  let query := target.dropWhile (· != question)
  let segments := ((unreservedEscape.decode path).splitOn slash).tail
  let folded := segments.foldl pushSegment [] ++ dotEnd segments
  slash :: (rooted slash folded).dropWhile (· == slash) ++ query

theorem resolveDots_eq_foldl (stack segs : List Bytes) :
    resolveDots stack segs = segs.foldl pushSegment stack ++ dotEnd segs := by
  induction segs generalizing stack with
  | nil => simp [resolveDots, dotEnd]
  | cons seg segs ih =>
    have hrest (hne : segs ≠ []) (stack' : List Bytes) :
        resolveDots stack' segs = segs.foldl pushSegment stack' ++ dotEnd (seg :: segs) := by
      rw [ih, dotEnd_cons seg hne]
    rw [resolveDots, foldl_cons, pushSegment]
    by_cases hs : segs = []
    · subst hs
      by_cases hd : seg = [dot]
      · simp [hd, dotEnd, isDot]
      · by_cases hdd : seg = [dot, dot]
        · simp [hdd, dotEnd, isDot]
        · simp [resolveDots, dotEnd, isDot, hd, hdd]
    · split_ifs
      · exact hrest hs _
      · exact hrest hs _
      · exact hrest hs _

theorem normalTarget_rooted (h : ∀ seg ∈ segs, slash ∉ seg)
    (hp : question ∉ rooted slash segs) (hq : IsQuery query) :
    normalTarget (rooted slash segs ++ query) = rooted slash (normalSegments segs) ++ query := by
  have hpl : ∀ b ∈ rooted slash segs, (b != question) = true := by
    intro b hb
    rw [bne_iff_ne]
    rintro rfl
    exact hp hb
  have htk : (rooted slash segs ++ query).takeWhile (· != question) = rooted slash segs := by
    rw [takeWhile_append_of_pos hpl]
    rcases hq with rfl | ⟨rest, rfl⟩ <;> simp
  have hdr : (rooted slash segs ++ query).dropWhile (· != question) = query := by
    rw [dropWhile_append_of_pos hpl]
    rcases hq with rfl | ⟨rest, rfl⟩ <;> simp
  have hdec := not_mem_decode (c := slash) (by decide) h
  rw [normalTarget, htk, hdr, Escape.decode_rooted unreservedEscape_cuts_slash, splitOn_rooted hdec,
    tail_cons, ← resolveDots_eq_foldl, dropWhile_rooted (not_mem_resolveDots hdec), normalSegments]

/-- Normalizing an absolute target gives its normal form, and `none` exactly when that is the
target itself. -/
theorem normalizeRequestPath_eq_normalTarget (target : Bytes) (habs : target.head? = some slash) :
    normalizeRequestPath target =
      if normalTarget target = target then none else some (normalTarget target) := by
  obtain ⟨p, query, rfl, hp, hq⟩ := exists_path_query target
  have hroo : p.head? = some slash := by
    cases p with
    | nil =>
      rcases hq with rfl | ⟨rest, rfl⟩
      · cases habs
      · obtain hne : question = slash := Option.some.inj habs
        exact absurd hne (by decide)
    | cons b p => exact habs
  obtain ⟨ss, rfl, hss, hne⟩ := exists_rooted hroo
  have hgetD := getD_normalizeRequestPath hss hp hq hne
  rw [normalTarget_rooted hss hp hq]
  rw [normalizeRequestPath_append hp hq, normalPath_rooted hss] at hgetD ⊢
  by_cases hwork : needsWork (rooted slash ss) = true ∧
      rooted slash (normalSegments ss) ≠ rooted slash ss
  · have hchanged : rooted slash (normalSegments ss) ++ query ≠ rooted slash ss ++ query :=
      fun heq => hwork.2 (append_cancel_right heq)
    rw [if_pos hwork, if_neg hchanged]
  · rw [if_neg hwork, Option.getD_none] at hgetD
    rw [if_neg hwork, if_pos hgetD.symm]

theorem normalizeRequestPath_eq_normalTarget_escaped :
    normalizeRequestPath (ascii "//a/%2e%2E/b/.?q=%41") = some (ascii "/b/?q=%41") := by
  rw [normalizeRequestPath_eq_normalTarget _ (by decide +kernel)]
  decide +kernel

end Pingclair
