import Pingclair.Lib.AsciiCase
import Pingclair.Lib.Wildcard

/-!
# Path patterns

The position of its stars decides which of six kinds a pattern is: `PathPattern.of`
classifies, `PathPattern.matches` compares bytes ignoring ASCII case. In a glob a star
stays inside one segment, so a pattern and a path match segment by segment.
-/

namespace Pingclair

open ByteText AsciiCase List Option

/-- One `path` pattern, classified by where its `*` characters are. -/
inductive PathPattern where
  | any
  | exact (text : Bytes)
  /-- One trailing `*`, stored without it. -/
  | prefixed (text : Bytes)
  /-- One leading `*`, stored without it. -/
  | suffixed (text : Bytes)
  /-- Exactly two `*`, one at each end, stored without them. -/
  | substring (text : Bytes)
  /-- Any other placement, stored whole. -/
  | glob (text : Bytes)
  deriving DecidableEq, Repr

def startsWith (text pre : Bytes) : Bool :=
  decide (text.length ≥ pre.length) && eqIgnoreCase (text.take pre.length) pre

def endsWith (text suffix : Bytes) : Bool :=
  decide (text.length ≥ suffix.length) &&
    eqIgnoreCase (text.drop (text.length - suffix.length)) suffix

def windows (text : Bytes) (n : Nat) : List Bytes :=
  (List.range (text.length + 1 - n)).map fun i => (text.drop i).take n

def contains (text needle : Bytes) : Bool :=
  needle.isEmpty || (windows text needle.length).any fun window => eqIgnoreCase window needle

/-- Glob within one segment, where `*` matches any run of bytes. -/
def segmentGlob (pattern text : Bytes) : Bool :=
  Wildcard.scan (· == star) (fun p t => lower p == lower t) (.start pattern text)

/-- The loop of `glob` over the segments of the pattern and of the path. -/
def globSegments : List Bytes → List Bytes → Bool
  | pattern :: patterns, segment :: segments =>
    if !segmentGlob pattern segment then false else globSegments patterns segments
  | [], [] => true
  | _, _ => false

def glob (pattern path : Bytes) : Bool :=
  globSegments (pattern.splitOn slash) (path.splitOn slash)

namespace PathPattern

def of (pattern : Bytes) : PathPattern :=
  let stars := pattern.count star
  let leading := pattern.head? = some star
  let trailing := pattern.getLast? = some star
  if stars = 0 then .exact pattern
  else if stars = 1 ∧ pattern.length = 1 then .any
  else if stars = 1 ∧ leading then .suffixed (pattern.drop 1)
  else if stars = 1 ∧ trailing then .prefixed (pattern.take (pattern.length - 1))
  else if stars = 2 ∧ leading ∧ trailing then
    .substring ((pattern.take (pattern.length - 1)).drop 1)
  else .glob pattern

def «matches» : PathPattern → Bytes → Bool
  | any, _ => true
  | exact text, path => eqIgnoreCase path text
  | prefixed text, path => startsWith path text
  | suffixed text, path => endsWith path text
  | substring text, path => contains path text
  | glob text, path => Pingclair.glob text path

/-- The text every matching path must start with: everything before the first `*`. -/
def literalPrefix : PathPattern → Bytes
  | any | suffixed _ | substring _ => []
  | exact text | prefixed text => text
  | glob text => ((text.idxOf? star).map text.take).getD text

end PathPattern

variable {text pattern path : Bytes}

theorem startsWith_iff {pre : Bytes} : startsWith text pre = true ↔ fold pre <+: fold text := by
  simp only [startsWith, Bool.and_eq_true, decide_eq_true_eq, eqIgnoreCase_iff]
  constructor
  · rintro ⟨-, heq⟩
    rw [← heq, ← fold_append_drop pre.length text]
    exact prefix_append ..
  · intro h
    have hlen : pre.length ≤ text.length := by simpa using h.length_le
    refine ⟨hlen, ?_⟩
    rw [fold_take, ← length_fold pre]
    exact (prefix_iff_eq_take.mp h).symm

theorem segmentGlob_iff :
    segmentGlob pattern text = true ↔
      Wildcard.Matches (· == star) (fun p t => lower p == lower t) pattern text :=
  Wildcard.scan_start pattern text

theorem globSegments_iff {patterns segments : List Bytes} :
    globSegments patterns segments = true ↔ Forall₂ (segmentGlob · · = true) patterns segments := by
  induction patterns generalizing segments with
  | nil => cases segments <;> simp [globSegments]
  | cons pattern patterns ih =>
    cases segments with
    | nil => simp [globSegments]
    | cons s segments =>
      rw [forall₂_cons, ← ih, globSegments]
      cases segmentGlob pattern s <;> simp

theorem glob_iff : glob pattern path = true ↔
    Forall₂ (segmentGlob · · = true) (pattern.splitOn slash) (path.splitOn slash) :=
  globSegments_iff

/-- A byte of a glob that is no star stands for itself, a slash included. -/
theorem glob_cons {b : UInt8} (hb : b ≠ star) (h : glob (b :: pattern) path = true) :
    ∃ a path', path = a :: path' ∧ lower b = lower a ∧ glob pattern path' = true := by
  obtain ⟨seg, ss, rfl, hsg, hss⟩ := exists_append_rooted slash path
  rw [glob_iff, splitOn_append_rooted hsg hss] at h
  by_cases hsl : b = slash
  · subst hsl
    rw [splitOn_cons_self, forall₂_cons, segmentGlob_iff] at h
    obtain ⟨rfl, h⟩ := h
    -- the pattern goes on behind the slash, so the path does too
    cases ss with
    | nil => exact absurd (forall₂_nil_right_iff.mp h) (splitOn_ne_nil _ _)
    | cons seg ss =>
      simp only [mem_cons, forall_eq_or_imp] at hss
      refine ⟨slash, seg ++ rooted slash ss, by simp, rfl, ?_⟩
      rwa [glob_iff, splitOn_append_rooted hss.1 hss.2]
  · obtain ⟨p, ps, hsp⟩ := exists_cons_of_ne_nil (splitOn_ne_nil slash pattern)
    rw [splitOn_cons_eq_if_modifyHead, if_neg (by simpa using hsl), hsp,
      modifyHead_cons, forall₂_cons, segmentGlob_iff] at h
    obtain ⟨hmt, h⟩ := h
    obtain ⟨run, rest, rfl, hfit, hrest⟩ := Wildcard.Matches.literals [b] (by simpa using hb) hmt
    obtain ⟨a, tail, hba, htl, rfl⟩ := forall₂_cons_left_iff.mp hfit
    rw [forall₂_nil_left_iff] at htl
    subst htl
    simp only [cons_append, nil_append, mem_cons, not_or] at hsg
    refine ⟨a, rest ++ rooted slash ss, by simp, eq_of_beq hba, ?_⟩
    rw [glob_iff, hsp, splitOn_append_rooted hsg.2 hss, forall₂_cons, segmentGlob_iff]
    exact ⟨hrest, h⟩

theorem fold_prefix_of_glob {literal : Bytes} (hlit : star ∉ literal) (pattern : Bytes)
    (h : glob (literal ++ pattern) path = true) : fold literal <+: fold path := by
  induction literal generalizing path with
  | nil => exact nil_prefix
  | cons b literal ih =>
    simp only [mem_cons, not_or] at hlit
    obtain ⟨a, path, rfl, hba, hrest⟩ := glob_cons (Ne.symm hlit.1) h
    rw [fold_cons, fold_cons, hba, cons_prefix_cons]
    exact ⟨rfl, ih hlit.2 hrest⟩

theorem literalPrefix_of_matches {pattern : PathPattern} (h : pattern.matches path = true) :
    fold pattern.literalPrefix <+: fold path := by
  cases pattern with
  | any | suffixed text | substring text => exact nil_prefix
  | exact text =>
    rw [PathPattern.literalPrefix, ← eqIgnoreCase_iff.mp h]
  | prefixed text => exact startsWith_iff.mp h
  | glob text =>
    have hglob : glob text path = true := h
    rw [PathPattern.literalPrefix]
    cases hidx : text.idxOf? star with
    | none =>
      have hlit : star ∉ text := idxOf?_eq_none_iff.mp hidx
      exact fold_prefix_of_glob hlit [] (by simpa using hglob)
    | some i =>
      have hlit : star ∉ text.take i := by
        obtain ⟨_, -, hbef⟩ := idxOf?_eq_some_iff.mp hidx
        intro hmem
        obtain ⟨j, hj, heq⟩ := mem_take_iff_getElem.mp hmem
        exact hbef j (by omega) heq
      exact fold_prefix_of_glob hlit (text.drop i) (by simpa using hglob)

theorem PathPattern.of_eq_exact : of pattern = exact text ↔ pattern = text ∧ star ∉ text := by
  constructor
  · intro h
    simp only [of] at h
    split_ifs at h with hc
    cases h
    exact ⟨rfl, count_eq_zero.mp hc⟩
  · rintro ⟨rfl, hstar⟩
    simp [of, count_eq_zero.mpr hstar]

theorem PathPattern.of_eq_prefixed :
    of pattern = prefixed text ↔ pattern = text ++ [star] ∧ star ∉ text ∧ text ≠ [] := by
  constructor
  · intro h
    simp only [of] at h
    split_ifs at h with hz hlen hleading htra
    cases h
    obtain ⟨hc, hla⟩ := htra
    have hne : pattern ≠ [] := by
      rintro rfl
      simp at hla
    have hcat : pattern = pattern.take (pattern.length - 1) ++ [star] := by
      rw [← dropLast_eq_take, ← dropLast_append_getLast hne]
      rw [getLast?_eq_some_getLast hne, some.injEq] at hla
      rw [dropLast_concat, hla]
    refine ⟨hcat, ?_, ?_⟩
    · rw [hcat] at hc
      apply count_eq_zero.mp
      simpa using hc
    · intro hni
      rw [hni] at hcat
      exact hlen ⟨hc, by rw [hcat]; rfl⟩
  · rintro ⟨rfl, hstar, hne⟩
    have hc : (text ++ [star]).count star = 1 := by
      simp [count_eq_zero.mpr hstar]
    have hhd : (text ++ [star]).head? ≠ some star := by
      obtain ⟨b, text, rfl⟩ := exists_cons_of_ne_nil hne
      simp only [mem_cons, not_or] at hstar
      simpa using Ne.symm hstar.1
    have hlen : (text ++ [star]).length ≠ 1 := by
      simpa using hne
    simp only [of, hc, hhd, hlen, getLast?_concat]
    simp

theorem PathPattern.of_eq_any : of pattern = any ↔ pattern = [star] := by
  constructor
  · intro h
    simp only [of] at h
    split_ifs at h with hz hone
    obtain ⟨b, rfl⟩ := length_eq_one_iff.mp hone.2
    have := count_pos_iff.mp (Nat.pos_of_ne_zero hz)
    rw [mem_singleton.mp this]
  · rintro rfl
    rfl

theorem PathPattern.of_eq_suffixed (hstar : star ∉ text) (hne : text ≠ []) :
    of (star :: text) = suffixed text := by
  have hc : (star :: text).count star = 1 := by
    simp [count_eq_zero.mpr hstar]
  have hlen : (star :: text).length ≠ 1 := by
    simpa using hne
  simp only [of, hc, hlen, head?_cons]
  simp

theorem PathPattern.of_eq_substring (hstar : star ∉ text) :
    of (star :: (text ++ [star])) = substring text := by
  have hc : (star :: (text ++ [star])).count star = 2 := by
    simp [count_eq_zero.mpr hstar]
  have hla : (star :: (text ++ [star])).getLast? = some star := by
    rw [← cons_append, getLast?_concat]
  simp only [of, hc, hla, head?_cons]
  simp

theorem PathPattern.of_eq_glob (hmem : star ∈ pattern)
    (ho : ∀ text, star ∉ text → pattern ≠ text ++ [star] ∧ pattern ≠ star :: text ∧
      pattern ≠ star :: (text ++ [star])) : of pattern = glob pattern := by
  obtain ⟨first, rest, rfl⟩ := exists_cons_of_ne_nil (ne_nil_of_mem hmem)
  simp only [of, head?_cons, some.injEq]
  split_ifs with hz hone hleading htra hen
  · exact absurd hmem (count_eq_zero.mp hz)
  · obtain rfl : rest = [] := by simpa using hone.2
    obtain rfl : star = first := by simpa using hmem
    exact absurd rfl (ho [] (by simp)).1
  · obtain ⟨hc, rfl⟩ := hleading
    have hnone : star ∉ rest := by
      apply count_eq_zero.mp
      simpa using hc
    exact absurd rfl (ho rest hnone).2.1
  · obtain ⟨hc, hla⟩ := htra
    obtain ⟨text, ht⟩ := getLast?_eq_some_iff.mp hla
    rw [ht] at hc
    have hnone : star ∉ text := by
      apply count_eq_zero.mp
      simpa using hc
    exact absurd ht (ho text hnone).1
  · obtain ⟨hc, rfl, hla⟩ := hen
    cases rest with
    | nil => simp at hc
    | cons second rest =>
      rw [getLast?_cons_cons] at hla
      obtain ⟨text, ht⟩ := getLast?_eq_some_iff.mp hla
      rw [ht, count_cons_self] at hc
      have hnone : star ∉ text := by
        apply count_eq_zero.mp
        simpa using hc
      exact absurd (congrArg (star :: ·) ht) (ho text hnone).2.2
  · rfl

theorem endsWith_iff {suf : Bytes} : endsWith text suf = true ↔ fold suf <:+ fold text := by
  simp only [endsWith, Bool.and_eq_true, decide_eq_true_eq, eqIgnoreCase_iff]
  constructor
  · rintro ⟨-, heq⟩
    rw [← heq, fold_drop]
    exact drop_suffix ..
  · intro h
    have hlen : suf.length ≤ text.length := by simpa using h.length_le
    refine ⟨hlen, ?_⟩
    rw [fold_drop, ← length_fold suf, ← length_fold text]
    exact (suffix_iff_eq_drop.mp h).symm

theorem contains_iff {needle : Bytes} :
    contains text needle = true ↔ fold needle <:+: fold text := by
  simp only [contains, windows, Bool.or_eq_true, List.isEmpty_iff, List.any_map, List.any_eq_true,
    mem_range, Function.comp_apply, eqIgnoreCase_iff]
  constructor
  · rintro (rfl | ⟨i, -, heq⟩)
    · exact nil_infix
    · rw [← heq, fold_take, fold_drop]
      exact (List.take_prefix ..).isInfix.trans (drop_suffix ..).isInfix
  · rintro ⟨before, after, heq⟩
    have hlen : before.length + needle.length + after.length = text.length := by
      rw [← length_fold text, ← heq, length_append, length_append, length_fold]
    refine .inr ⟨before.length, by omega, ?_⟩
    rw [fold_take, fold_drop, ← heq, append_assoc, drop_left, ← length_fold needle, take_left]

/-- A segment of a path that a segment of a pattern turns into: every star is replaced by some
run of bytes, and every other byte stands for itself in either case. -/
def TurnsInto (pattern segment : Bytes) : Prop :=
  ∃ pieces : List Bytes, pieces.flatten = segment ∧
    List.Forall₂ (fun b piece => b = star ∨ ∃ a, piece = [a] ∧ lower b = lower a) pattern pieces

theorem segmentGlob_iff_turnsInto {segment : Bytes} :
    segmentGlob pattern segment = true ↔ TurnsInto pattern segment := by
  rw [segmentGlob_iff, Wildcard.matches_iff_pieces, TurnsInto]
  simp

/-- The documented reading of a pattern, in any case of ASCII letters, by the places of its
stars. -/
structure PathPattern.Reading (pattern path : Bytes) (answer : Prop) : Prop where
  exact : star ∉ pattern → (answer ↔ fold path = fold pattern)
  alone : pattern = [star] → answer
  trailing : ∀ text, star ∉ text → pattern = text ++ [star] → (answer ↔ fold text <+: fold path)
  leading : ∀ text, star ∉ text → pattern = star :: text → (answer ↔ fold text <:+ fold path)
  ends : ∀ text, star ∉ text → pattern = star :: (text ++ [star]) →
    (answer ↔ fold text <:+: fold path)
  other : star ∈ pattern →
    (∀ text, star ∉ text → pattern ≠ text ++ [star] ∧ pattern ≠ star :: text ∧
      pattern ≠ star :: (text ++ [star])) →
    (answer ↔ List.Forall₂ TurnsInto (pattern.splitOn slash) (path.splitOn slash))

/-- Every pattern matches the paths that its documented reading says, and those start with its
literal text. -/
theorem reading_matches (pattern path : Bytes) :
    PathPattern.Reading pattern path ((PathPattern.of pattern).matches path = true) ∧
      ((PathPattern.of pattern).matches path = true →
        fold (PathPattern.of pattern).literalPrefix <+: fold path) := by
  refine ⟨⟨fun hstar => ?_, ?_, fun text hstar heq => ?_, fun text hstar heq => ?_,
    fun text hstar heq => ?_, fun hmem ho => ?_⟩, literalPrefix_of_matches⟩
  · rw [PathPattern.of_eq_exact.mpr ⟨rfl, hstar⟩]
    exact eqIgnoreCase_iff
  · rintro rfl
    rfl
  · rcases eq_or_ne text [] with rfl | hne
    · rw [PathPattern.of_eq_any.mpr heq]
      simp [PathPattern.matches]
    · rw [PathPattern.of_eq_prefixed.mpr ⟨heq, hstar, hne⟩]
      exact startsWith_iff
  · rcases eq_or_ne text [] with rfl | hne
    · rw [PathPattern.of_eq_any.mpr heq]
      simp [PathPattern.matches]
    · rw [heq, PathPattern.of_eq_suffixed hstar hne]
      exact endsWith_iff
  · rw [heq, PathPattern.of_eq_substring hstar]
    exact contains_iff
  · rw [PathPattern.of_eq_glob hmem ho]
    refine glob_iff.trans ?_
    simp [segmentGlob_iff_turnsInto]

def PathPattern.folded : PathPattern → PathPattern
  | any => any
  | exact text => exact (fold text)
  | prefixed text => prefixed (fold text)
  | suffixed text => suffixed (fold text)
  | substring text => substring (fold text)
  | glob text => glob (fold text)

theorem PathPattern.of_fold (pattern : Bytes) : of (fold pattern) = (of pattern).folded := by
  have hstar : ∀ b, lower b = star ↔ b = star := fun b => lower_eq_iff (by decide)
  have hc : (fold pattern).count star = pattern.count star := by
    rw [count_eq_countP, fold, countP_map]
    congr 1
    funext b
    simp [hstar]
  have hhd : (fold pattern).head? = some star ↔ pattern.head? = some star := by
    simp [fold, hstar]
  have hla : (fold pattern).getLast? = some star ↔ pattern.getLast? = some star := by
    simp [fold, hstar]
  simp only [of, hc, length_fold, hhd, hla, ← fold_drop, ← fold_take]
  split_ifs <;> rfl

theorem endsWith_fold (text suffix : Bytes) :
    endsWith (fold text) (fold suffix) = endsWith text suffix := by
  simp [endsWith, ← fold_drop, eqIgnoreCase]

theorem contains_fold (text needle : Bytes) :
    contains (fold text) (fold needle) = contains text needle := by
  have hwindows : ∀ n, windows (fold text) n = (windows text n).map fold := by
    intro n
    simp [windows, fold_drop, fold_take]
  have hem : (fold needle).isEmpty = needle.isEmpty := by
    cases needle <;> rfl
  simp [contains, hwindows, hem, eqIgnoreCase, Function.comp_def]

theorem segmentGlob_fold (pattern text : Bytes) :
    segmentGlob (fold pattern) (fold text) = segmentGlob pattern text := by
  have hstar : (fun b => lower b == star) = fun b : UInt8 => b == star := by
    funext b
    rw [Bool.eq_iff_iff, beq_iff_eq, beq_iff_eq, lower_eq_iff (by decide)]
  rw [Bool.eq_iff_iff, segmentGlob_iff, segmentGlob_iff, fold, fold, Wildcard.matches_map]
  simp [hstar]

theorem glob_fold (pattern path : Bytes) : glob (fold pattern) (fold path) = glob pattern path := by
  rw [Bool.eq_iff_iff, glob_iff, glob_iff, splitOn_fold (by decide), splitOn_fold (by decide),
    forall₂_map_left_iff, forall₂_map_right_iff]
  simp [segmentGlob_fold]

theorem matches_folded (pattern : PathPattern) (path : Bytes) :
    pattern.folded.matches (fold path) = pattern.matches path := by
  cases pattern with
  | any => rfl
  | exact text => simp [PathPattern.folded, PathPattern.matches, eqIgnoreCase]
  | prefixed text =>
    rw [Bool.eq_iff_iff]
    exact startsWith_iff.trans (by rw [fold_fold, fold_fold]; exact startsWith_iff.symm)
  | suffixed text => exact endsWith_fold path text
  | substring text => exact contains_fold path text
  | glob text => exact glob_fold text path

end Pingclair
