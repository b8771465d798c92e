import Pingclair.Path.Normalize
import Pingclair.Path.Pattern

/-!
# Paths and the files they name

`resolvePath` turns a request path into the path of a file below a root: split at `/`, each segment
decoded, empty and `.` segments dropped, `..` popped. A path matcher compares its pattern with
`decodeForMatching` of the path, in which nothing is dropped.
-/

namespace Pingclair

open ByteText Percent List Option

/-- The loop of `resolvePath` over the components of the request path. A path on disk is
the list of its components; `depth` counts those below the root. -/
def resolveLoop : List Bytes → List Bytes → Nat → Option (List Bytes)
  | [], out, _ => some out
  | comp :: comps, out, depth =>
    match if percent ∈ comp then decodePathComponent comp [] else some comp with
    | none => none
    | some segment =>
      if segment = [] ∨ segment = [dot] then resolveLoop comps out depth
      else if segment = [dot, dot] then
        if depth = 0 then none else resolveLoop comps out.dropLast (depth - 1)
      else resolveLoop comps (out ++ [segment]) (depth + 1)

def resolvePath (root : List Bytes) (path : Bytes) : Option (List Bytes) :=
  resolveLoop (path.splitOn slash) root 0

theorem segment_eq (comp : Bytes) :
    (if percent ∈ comp then decodePathComponent comp [] else some comp) =
      decodePathComponent comp [] := by
  split
  · rfl
  · next h => rw [decodePathComponent_of_not_mem h, nil_append]

/-- The segment holds an escaped separator or NUL, which no file name can. -/
def refused (seg : Bytes) : Bool := (decodePathComponent seg []).isNone

variable {seg : Bytes}

theorem decodePathComponent_of_not_refused (h : refused seg = false) :
    decodePathComponent seg [] = some (percentEscape.decode seg) := by
  rw [refused, isNone_eq_false_iff, isSome_iff_exists] at h
  obtain ⟨name, hn⟩ := h
  rw [hn, decodePathComponent_eq_some hn, nil_append]

def componentsOf (segs : List Bytes) : List Bytes :=
  (segs.map percentEscape.decode).filter (· ≠ [])

/-- Without dots among its segments, a path names its non-empty segments in order. -/
theorem resolveLoop_of_no_dots {comps : List Bytes}
    (hdots : ∀ comp ∈ comps, isDot (percentEscape.decode comp) = false)
    (out : List Bytes) (depth : Nat) :
    resolveLoop comps out depth =
      if comps.any refused then none
      else some (out ++ componentsOf comps) := by
  induction comps generalizing out depth with
  | nil => simp [resolveLoop, componentsOf]
  | cons comp comps ih =>
    have htl := ih (forall_mem_cons.mp hdots).2
    rw [resolveLoop, segment_eq]
    cases href : refused comp with
    | true =>
      rw [refused, isNone_iff_eq_none] at href
      simp [href, refused]
    | false =>
      have hd : percentEscape.decode comp ≠ [dot] ∧ percentEscape.decode comp ≠ [dot, dot] := by
        simpa [isDot] using hdots comp mem_cons_self
      rw [decodePathComponent_of_not_refused href]
      simp only [hd.1, hd.2, or_false, if_false, htl, any_cons, href, Bool.false_or]
      by_cases hem : percentEscape.decode comp = [] <;> simp [componentsOf, hem]

/-- The canonical spelling of the file with the given components: trailing slash when the
request path has one. -/
def canonical (components : List Bytes) (path : Bytes) : Bytes :=
  rooted slash components ++ if path.getLast? = some slash then [slash] else []

/-- Every pattern that matches the canonical spelling of the file a target names matches the
text that is compared for the target itself. -/
def Guarded (target : Bytes) : Prop :=
  ∀ (root components : List Bytes) (pattern : Utf8.Str),
    resolvePath root (pathPart target) = some (root ++ components) →
    (∀ component ∈ components, Utf8.valid component = true) →
    (PathPattern.of pattern.bytes).matches (canonical components (pathPart target)) = true →
    (PathPattern.of pattern.bytes).matches (decodeForMatching (pathPart target)) = true

def unnamed (seg : Bytes) : Bool :=
  match decodePathComponent seg [] with
  | none => true
  | some name => !Utf8.valid name

theorem unnamed_eq_false_iff : unnamed seg = false ↔
    refused seg = false ∧ Utf8.valid (percentEscape.decode seg) = true := by
  rw [unnamed, refused]
  cases h : decodePathComponent seg [] with
  | none => simp
  | some name => simp [decodePathComponent_eq_some h]

variable {segs : List Bytes}

/-- What is compared for a path whose segments all name files: the path decoded, segment by
segment. -/
theorem decodeForMatching_of_named (hqm : question ∉ seg ++ rooted slash segs)
    (hnm : ∀ x ∈ seg :: segs, unnamed x = false) :
    decodeForMatching (seg ++ rooted slash segs) =
      percentEscape.decode seg ++ rooted slash (segs.map percentEscape.decode) := by
  have hdecode : percentEscape.decode (seg ++ rooted slash segs) =
      percentEscape.decode seg ++ rooted slash (segs.map percentEscape.decode) :=
    Escape.decode_append_rooted (percentEscape_cuts (by decide) (by decide)) seg segs
  have hv : Utf8.valid (percentEscape.decode (seg ++ rooted slash segs)) = true := by
    have hn := fun x hx => (unnamed_eq_false_iff.mp (hnm x hx)).2
    rw [hdecode, Utf8.valid_append (hn seg mem_cons_self)]
    refine Utf8.valid_rooted (by decide) ?_
    simpa using (forall_mem_cons.mp hn).2
  rw [decodeForMatching_path hqm, if_pos (.inr hv), hdecode]

/-- The file that a target left alone by the normalizer names. -/
theorem resolvePath_of_fixed {path q : Bytes} (hp : question ∉ path) (hq : IsQuery q)
    (hfix : normalizeRequestPath (path ++ q) = none) (root : List Bytes) :
    resolvePath root path =
      if (path.splitOn slash).any refused then none
      else some (root ++ componentsOf (path.splitOn slash)) :=
  resolveLoop_of_no_dots (isDot_decode_of_fixed hp hq hfix) root 0

def trailing (path : Bytes) : List Bytes := if path.getLast? = some slash then [[]] else []

theorem canonical_eq (components : List Bytes) (path : Bytes) :
    canonical components path = rooted slash (components ++ trailing path) := by
  rw [canonical, trailing]
  split <;> simp

theorem trailing_append_cons {s last : Bytes} (hlast : slash ∉ last) :
    trailing (s ++ slash :: last) = if last = [] then [[]] else [] := by
  rcases eq_nil_or_concat' last with rfl | ⟨init, b, rfl⟩
  · simp [trailing]
  · have hb : b ≠ slash := by
      rintro rfl
      exact hlast (by simp)
    have hcat : s ++ slash :: (init ++ [b]) = (s ++ slash :: init) ++ [b] := by simp
    rw [trailing, hcat, List.getLast?_concat]
    simp [hb]

theorem decode_eq_nil_iff : percentEscape.decode seg = [] ↔ seg = [] := by
  refine ⟨fun h => ?_, fun h => by simp [h]⟩
  by_contra hne
  exact Escape.decode_ne_nil hne h

/-- With no empty segment but the last, dropping empty segments and adding the trailing
slash gives all segments back. -/
theorem componentsOf_append_trailing (hne : segs ≠ [])
    (hsl : ∀ seg ∈ segs, slash ∉ seg) (hin : ∀ seg ∈ segs.dropLast, seg ≠ []) :
    componentsOf segs ++ trailing (rooted slash segs) = segs.map percentEscape.decode := by
  obtain ⟨i, l, rfl⟩ := (eq_nil_or_concat' segs).resolve_left hne
  have hi : (i.map percentEscape.decode).filter (· ≠ []) = i.map percentEscape.decode := by
    simpa [decode_eq_nil_iff] using hin
  have htrail := trailing_append_cons (s := rooted slash i) (hsl l (by simp))
  rw [componentsOf, rooted_append, rooted_cons, rooted_nil, append_nil, htrail,
    map_append, filter_append, hi]
  by_cases hla : l = [] <;> simp [hla, decode_eq_nil_iff]

/-- The other way round: when as many segments are dropped as the trailing slash adds, only
the last segment may be empty. -/
theorem inner_ne_nil (hne : segs ≠ []) (hsl : ∀ seg ∈ segs, slash ∉ seg)
    (hlen : (componentsOf segs).length + (trailing (rooted slash segs)).length = segs.length) :
    ∀ seg ∈ segs.dropLast, seg ≠ [] := by
  obtain ⟨i, l, rfl⟩ := (eq_nil_or_concat' segs).resolve_left hne
  have htrail := trailing_append_cons (s := rooted slash i) (hsl l (by simp))
  rw [componentsOf, rooted_append, rooted_cons, rooted_nil, append_nil, htrail,
    map_append, filter_append, length_append] at hlen
  have hin : ((i.map percentEscape.decode).filter (· ≠ [])).length =
      (i.map percentEscape.decode).length := by
    by_cases hla : l = [] <;> simp [hla, decode_eq_nil_iff] at hlen ⊢ <;> exact hlen
  simpa [decode_eq_nil_iff] using length_filter_eq_length_iff.mp hin

def anyNames (components : List Bytes) (path : Bytes) : Bytes :=
  rooted slash (components.map (fun _ => [star, star]) ++ trailing path)

theorem slash_not_mem_trailing (path : Bytes) : ∀ x ∈ trailing path, slash ∉ x := by
  rw [trailing]
  split <;> simp

theorem valid_anyNames (components : List Bytes) (path : Bytes) :
    Utf8.valid (anyNames components path) = true := by
  refine Utf8.valid_rooted (by decide) ?_
  intro x hx
  rcases mem_append.mp hx with hx | hx
  · obtain ⟨_, -, rfl⟩ := mem_map.mp hx
    rfl
  · rw [trailing] at hx
    split at hx
    · rw [mem_singleton.mp hx]
      rfl
    · exact absurd hx not_mem_nil

variable {components : List Bytes}

theorem of_anyNames (h : components ≠ []) (path : Bytes) :
    PathPattern.of (anyNames components path) = .glob (anyNames components path) := by
  obtain ⟨c, components, rfl⟩ := exists_cons_of_ne_nil h
  have hhd : (anyNames (c :: components) path).head? ≠ some star := by
    simp [anyNames]
  have hc : 2 ≤ (anyNames (c :: components) path).count star := by
    simp [anyNames]
  rw [PathPattern.of]
  simp only [hhd, false_and, and_false, if_false]
  rw [if_neg (by omega), if_neg (by omega), if_neg (by omega)]

theorem segmentGlob_nil {text : Bytes} : segmentGlob [] text = true ↔ text = [] := segmentGlob_iff

theorem segmentGlob_stars (text : Bytes) : segmentGlob [star, star] text = true := by
  rw [segmentGlob_iff]
  exact ⟨text, [], by simp, (Wildcard.matches_nil _).mpr rfl⟩

/-- What the segments of `anyNames` match: nothing, then each component, then nothing behind
a trailing slash. -/
theorem glob_anyNames_iff {path : Bytes} (hseg : slash ∉ seg) (hsegs : ∀ x ∈ segs, slash ∉ x) :
    glob (anyNames components path) (seg ++ rooted slash segs) = true ↔
      seg = [] ∧ List.Forall₂ (segmentGlob · · = true)
        (components.map (fun _ => [star, star]) ++ trailing path) segs := by
  have hpat : ∀ x ∈ components.map (fun _ => [star, star]) ++ trailing path, slash ∉ x := by
    refine forall_mem_append.mpr ⟨forall_mem_map.mpr fun _ _ => ?_, slash_not_mem_trailing path⟩
    decide
  rw [glob_iff, anyNames, splitOn_rooted hpat, splitOn_append_rooted hseg hsegs,
    forall₂_cons, segmentGlob_nil]

theorem glob_anyNames_canonical (hsl : ∀ c ∈ components, slash ∉ c)
    (path : Bytes) : glob (anyNames components path) (canonical components path) = true := by
  have hsegs : ∀ x ∈ components ++ trailing path, slash ∉ x :=
    forall_mem_append.mpr ⟨hsl, slash_not_mem_trailing path⟩
  rw [canonical_eq, ← nil_append (rooted slash _), glob_anyNames_iff (by simp) hsegs]
  refine ⟨rfl, rel_append ?_ ?_⟩
  · rw [forall₂_map_left_iff]
    exact forall₂_same.mpr fun c _ => segmentGlob_stars c
  · rw [trailing]
    split
    · exact .cons (segmentGlob_nil.mpr rfl) .nil
    · exact .nil

theorem componentsOf_nil_cons (segs : List Bytes) :
    componentsOf ([] :: segs) = componentsOf segs := by
  simp [componentsOf]

/-- With no empty segment but the last, the canonical spelling is what is compared. -/
theorem canonical_of_inner (hne : segs ≠ [])
    (hsl : ∀ seg ∈ segs, slash ∉ seg) (hin : ∀ seg ∈ segs.dropLast, seg ≠ []) :
    canonical (componentsOf segs) (rooted slash segs) =
      rooted slash (segs.map percentEscape.decode) := by
  rw [canonical_eq, componentsOf_append_trailing hne hsl hin]

theorem slash_not_mem_decode_of_named (hsl : slash ∉ seg)
    (hnm : unnamed seg = false) : slash ∉ percentEscape.decode seg :=
  slash_not_mem_decodePathComponent hsl not_mem_nil
    (decodePathComponent_of_not_refused (unnamed_eq_false_iff.mp hnm).1)

theorem valid_componentsOf (hnm : ∀ x ∈ segs, unnamed x = false) :
    ∀ c ∈ componentsOf segs, Utf8.valid c = true := by
  intro c hc
  obtain ⟨x, hx, rfl⟩ := mem_map.mp (mem_filter.mp hc).1
  exact (unnamed_eq_false_iff.mp (hnm x hx)).2

theorem named_of_valid (href : segs.any refused = false)
    (hv : ∀ c ∈ componentsOf segs, Utf8.valid c = true) : ∀ x ∈ segs, unnamed x = false := by
  intro x hx
  refine unnamed_eq_false_iff.mpr ⟨by simpa using any_eq_false.mp href x hx, ?_⟩
  by_cases hem : percentEscape.decode x = []
  · rw [hem]
    rfl
  · exact hv _ (mem_filter.mpr ⟨mem_map_of_mem hx, by simpa using hem⟩)

/-- The glob that allows any names matches what is compared only if the canonical spelling
has the same segments. -/
theorem inner_of_glob (hsg : slash ∉ seg)
    (hss : ∀ x ∈ segs, slash ∉ x) (hnm : ∀ x ∈ seg :: segs, unnamed x = false)
    (hp : seg ++ rooted slash segs ≠ [])
    (h : glob (anyNames (componentsOf (seg :: segs)) (seg ++ rooted slash segs))
      (percentEscape.decode seg ++ rooted slash (segs.map percentEscape.decode)) = true) :
    (seg ++ rooted slash segs).head? = some slash ∧ ∀ x ∈ segs.dropLast, x ≠ [] := by
  have hdec : ∀ x ∈ segs.map percentEscape.decode, slash ∉ x := by
    intro x hx
    obtain ⟨raw, hraw, rfl⟩ := mem_map.mp hx
    exact slash_not_mem_decode_of_named (hss raw hraw) (hnm raw (mem_cons_of_mem _ hraw))
  rw [glob_anyNames_iff (slash_not_mem_decode_of_named hsg (hnm seg mem_cons_self))
    hdec, decode_eq_nil_iff] at h
  obtain ⟨rfl, hrel⟩ := h
  have hne : segs ≠ [] := by
    rintro rfl
    exact hp rfl
  have hlen := hrel.length_eq
  rw [componentsOf_nil_cons, length_append, length_map, length_map] at hlen
  obtain ⟨x, segs, rfl⟩ := exists_cons_of_ne_nil hne
  exact ⟨rfl, inner_ne_nil hne hss hlen⟩

/-- Exactly which targets that normalizing leaves alone are guarded: those with a segment
that names no file in UTF-8, the empty path, and the absolute paths with no empty segment
but the last. -/
theorem guarded_iff (target : Bytes) (hfixed : normalizeRequestPath target = none) :
    Guarded target ↔
      (∃ seg ∈ (pathPart target).splitOn slash, unnamed seg = true) ∨
      pathPart target = [] ∨
      ((pathPart target).head? = some slash ∧
        ∀ seg ∈ ((pathPart target).splitOn slash).tail.dropLast, seg ≠ []) := by
  obtain ⟨path, q, rfl, hpath, hq⟩ := exists_path_query target
  have hresolve := resolvePath_of_fixed hpath hq hfixed
  rw [Guarded, pathPart_append hpath hq]
  obtain ⟨seg, segs, rfl, hseg, hsegs⟩ := exists_append_rooted slash path
  simp only [splitOn_append_rooted hseg hsegs, tail_cons] at hresolve ⊢
  have hcompared := decodeForMatching_of_named hpath
  constructor
  · intro hguard
    by_cases hun : ∃ x ∈ seg :: segs, unnamed x = true
    · exact .inl hun
    have hnm : ∀ x ∈ seg :: segs, unnamed x = false := by simpa using hun
    refine .inr (or_iff_not_imp_left.mpr fun hnemp => ?_)
    have href : (seg :: segs).any refused = false := by
      simpa using fun x hx => (unnamed_eq_false_iff.mp (hnm x hx)).1
    by_cases hcomps : componentsOf (seg :: segs) = []
    · -- only empty segments, and a leading run of slashes is never left alone
      have hall : ∀ x ∈ seg :: segs, x = [] := by
        simpa [componentsOf, decode_eq_nil_iff] using hcomps
      obtain rfl : seg = [] := hall seg mem_cons_self
      have hne : segs ≠ [] := by
        rintro rfl
        exact hnemp rfl
      have hcoll := collapse_of_fixed hsegs hpath hq hne hfixed
      have hdrop : segs.dropWhile (· = []) = [] := by
        simpa using (forall_mem_cons.mp hall).2
      rw [collapse, hdrop] at hcoll
      simp [← hcoll]
    · have hsl : ∀ c ∈ componentsOf (seg :: segs), slash ∉ c := by
        intro c hc
        obtain ⟨x, hx, rfl⟩ := mem_map.mp (mem_filter.mp hc).1
        refine slash_not_mem_decode_of_named ?_ (hnm x hx)
        rcases mem_cons.mp hx with rfl | hx
        exacts [hseg, hsegs x hx]
      have hglob := hguard [] (componentsOf (seg :: segs)) ⟨_, valid_anyNames _ _⟩
        (by rw [hresolve, href]; rfl) (valid_componentsOf hnm)
        (by rw [of_anyNames hcomps]; exact glob_anyNames_canonical hsl _)
      rw [hcompared hnm, of_anyNames hcomps] at hglob
      exact inner_of_glob hseg hsegs hnm hnemp hglob
  · rintro hcond root components pattern hsome hval hmt
    rw [hresolve] at hsome
    split at hsome
    · simp at hsome
    · next href =>
      obtain rfl : componentsOf (seg :: segs) = components := by simpa using hsome
      have hnm := named_of_valid (by simpa using href) hval
      rw [hcompared hnm]
      rcases hcond with ⟨x, hx, hun⟩ | hemp | ⟨habs, hin⟩
      · exact absurd (hnm x hx) (by simp [hun])
      · obtain ⟨rfl, hroo⟩ := append_eq_nil_iff.mp hemp
        obtain rfl : segs = [] := eq_nil_iff_forall_not_mem.mpr (by simpa [rooted] using hroo)
        simpa [componentsOf, canonical] using hmt
      · obtain rfl : seg = [] := by
          cases seg with
          | nil => rfl
          | cons b seg =>
            obtain rfl : b = slash := by simpa using habs
            exact absurd mem_cons_self hseg
        have hne : segs ≠ [] := by
          rintro rfl
          simp at habs
        rw [componentsOf_nil_cons, nil_append, canonical_of_inner hne hsegs hin] at hmt
        simpa using hmt

theorem guarded_iff_plain :
    normalizeRequestPath (ascii "/docs/a%20b/?q") = none ∧ Guarded (ascii "/docs/a%20b/?q") :=
  ⟨by decide +kernel, (guarded_iff _ (by decide +kernel)).mpr (.inr (.inr (by decide +kernel)))⟩

/-- A pattern for the file `/a/b` misses a request that names it as `/a//b`. -/
theorem not_guarded_double_slash :
    normalizeRequestPath (ascii "/a//b") = none ∧
      resolvePath [ascii "srv"] (ascii "/a//b") = some [ascii "srv", ascii "a", ascii "b"] ∧
      canonical [ascii "a", ascii "b"] (ascii "/a//b") = ascii "/a/b" ∧
      (PathPattern.of (ascii "/a/b")).matches (ascii "/a/b") = true ∧
      decodeForMatching (ascii "/a//b") = ascii "/a//b" ∧
      (PathPattern.of (ascii "/a/b")).matches (ascii "/a//b") = false ∧
      ¬Guarded (ascii "/a//b") := by
  have hfix : normalizeRequestPath (ascii "/a//b") = none := by decide +kernel
  refine ⟨hfix, by decide +kernel, by decide +kernel, by decide +kernel, by decide +kernel,
    by decide, ?_⟩
  intro h
  have hmt := h [ascii "srv"] [ascii "a", ascii "b"] ⟨ascii "/a/b", by decide⟩
    (by decide) (by decide) (by decide)
  exact absurd hmt (by decide)

end Pingclair
