import Pingclair.Lib.ByteText
import Pingclair.Lib.Wildcard

/-!
# Paths that may be retried

A `*` in a pattern stands for any run of characters. The matcher looks for the pieces between the
stars from the left, each at its first place behind the one before, and never goes back.
-/

namespace Pingclair.RetryPaths

open ByteText List Option

def behindFirst (part : List Char) : List Char → Option (List Char)
  | [] => [].dropPrefix? part
  | c :: rest => ((c :: rest).dropPrefix? part).or (behindFirst part rest)

def behindParts : (parts : List (List Char)) → (rest : List Char) → Option (List Char)
  | [], rest => some rest
  | part :: parts, rest =>
    if part = [] then behindParts parts rest
    else
      match behindFirst part rest with
      | none => none
      | some rest => behindParts parts rest

def globMatches (pattern value : List Char) : Bool :=
  if pattern = ['*'] then true
  else
    match pattern.splitOn '*' with
    | [] => true
    | first :: parts =>
      match value.dropPrefix? first with
      | none => false
      | some rest =>
        match behindParts parts rest with
        | none => false
        | some rest => pattern.getLast? = some '*' || rest.isEmpty

/-- The texts that a pattern gives when each star is replaced by some run of characters. -/
abbrev Matches : (pattern text : List Char) → Prop :=
  Wildcard.Matches (· == '*') (· == ·)

theorem matches_star (pattern text : List Char) :
    Matches ('*' :: pattern) text ↔ ∃ run rest, text = run ++ rest ∧ Matches pattern rest :=
  Wildcard.matches_star rfl pattern text

variable {part pattern text : List Char}

theorem matches_append (hpr : '*' ∉ part) (pattern text : List Char) :
    Matches (part ++ pattern) text ↔ ∃ rest, text = part ++ rest ∧ Matches pattern rest := by
  constructor
  · intro h
    obtain ⟨run, rest, rfl, hft, hrest⟩ := h.literals part fun c hc => by
      simpa using ne_of_mem_of_not_mem hc hpr
    have heq : part = run := by simpa using hft
    exact ⟨rest, by rw [heq], hrest⟩
  · rintro ⟨rest, rfl, hrest⟩
    induction part with
    | nil => exact hrest
    | cons c part ih =>
      simp only [mem_cons, not_or] at hpr
      exact (Wildcard.matches_cons (by simpa using Ne.symm hpr.1) ..).mpr ⟨by simp, ih hpr.2⟩

/-- What a text leaves behind a beginning that a pattern stands for. -/
def Leaves (pattern text left : List Char) : Prop :=
  ∃ used, text = used ++ left ∧ Matches pattern used

theorem leaves_nil : Leaves pattern text [] ↔ Matches pattern text := by
  simp [Leaves]

theorem leaves_append (hpr : '*' ∉ part) {left : List Char} :
    Leaves (part ++ pattern) text left ↔
      ∃ after, text = part ++ after ∧ Leaves pattern after left := by
  simp only [Leaves, matches_append hpr]
  constructor
  · rintro ⟨_, rfl, rest, rfl, h⟩
    exact ⟨rest ++ left, by simp, rest, rfl, h⟩
  · rintro ⟨_, rfl, rest, rfl, h⟩
    exact ⟨part ++ rest, by simp, rest, rfl, h⟩

theorem leaves_star {left : List Char} :
    Leaves ('*' :: pattern) text left ↔
      ∃ run after, text = run ++ after ∧ Leaves pattern after left := by
  constructor
  · rintro ⟨_, rfl, run, rest, rfl, h⟩
    exact ⟨run, rest ++ left, by simp, rest, rfl, h⟩
  · rintro ⟨run, _, rfl, rest, rfl, h⟩
    exact ⟨run ++ rest, by simp, run, rest, rfl, h⟩

theorem matches_of_leaves {left : List Char} (hla : pattern.getLast? = some '*')
    (h : Leaves pattern text left) : Matches pattern text := by
  obtain ⟨before, rfl⟩ := List.getLast?_eq_some_iff.mp hla
  induction before generalizing text with
  | nil => exact (matches_star ..).mpr ⟨text, [], by simp, rfl⟩
  | cons c before ih =>
    have hrest : (before ++ ['*']).getLast? = some '*' := by simp
    by_cases hc : c = '*'
    · subst hc
      obtain ⟨run, after, rfl, haf⟩ := leaves_star.mp h
      exact (matches_star ..).mpr ⟨run, after, rfl, ih hrest haf⟩
    · have hpr : '*' ∉ [c] := by simpa using Ne.symm hc
      obtain ⟨after, rfl, haf⟩ := (leaves_append hpr).mp h
      exact (matches_append hpr ..).mpr ⟨after, rfl, ih hrest haf⟩

theorem behindFirst_sound {after : List Char} (h : behindFirst part text = some after) :
    ∃ run, text = run ++ (part ++ after) := by
  induction text with
  | nil =>
    rw [behindFirst, dropPrefix?_eq_some] at h
    exact ⟨[], h⟩
  | cons c text ih =>
    rw [behindFirst, or_eq_some_iff] at h
    rcases h with h | ⟨-, h⟩
    · rw [dropPrefix?_eq_some] at h
      exact ⟨[], h⟩
    · obtain ⟨run, hrun⟩ := ih h
      exact ⟨c :: run, by rw [hrun, cons_append]⟩

/-- The first place of a part leaves more of the text than any other place. -/
theorem behindFirst_complete (part run after : List Char) :
    ∃ more, behindFirst part (run ++ (part ++ after)) = some (more ++ after) := by
  induction run with
  | nil =>
    have hdr := dropPrefix?_eq_some.mpr (rfl : part ++ after = part ++ after)
    refine ⟨[], ?_⟩
    rw [nil_append, nil_append]
    cases ht : part ++ after with
    | nil => rwa [behindFirst, ← ht]
    | cons c text => rw [behindFirst, ← ht, hdr, some_or]
  | cons c run ih =>
    rw [cons_append, behindFirst]
    cases hdr : (c :: (run ++ (part ++ after))).dropPrefix? part with
    | none => exact ih
    | some rest =>
      have hrest := dropPrefix?_eq_some.mp hdr
      have hlen := congrArg List.length hrest
      simp only [length_cons, length_append] at hlen
      obtain ⟨more, rfl⟩ : after <:+ rest := by
        have haf : after <:+ part ++ rest := ⟨c :: (run ++ part), by rw [← hrest]; simp⟩
        exact suffix_of_suffix_length_le haf ⟨part, rfl⟩ (by omega)
      exact ⟨more, rfl⟩

theorem behindParts_cons (part : List Char) (parts : List (List Char)) (rest : List Char) :
    behindParts (part :: parts) rest = (behindFirst part rest).bind (behindParts parts) := by
  rw [behindParts]
  split
  · next hpr =>
    subst hpr
    cases rest <;> rfl
  · cases behindFirst part rest <;> rfl

section

variable {parts : List (List Char)} (hparts : ∀ part ∈ parts, '*' ∉ part) {rest left : List Char}

include hparts

theorem behindParts_sound (h : behindParts parts rest = some left) :
    Leaves (rooted '*' parts) rest left := by
  induction parts generalizing rest with
  | nil => exact ⟨[], Option.some.inj h, rfl⟩
  | cons part parts ih =>
    obtain ⟨hpr, hparts⟩ := forall_mem_cons.mp hparts
    rw [behindParts_cons, bind_eq_some_iff] at h
    obtain ⟨after, hf, haf⟩ := h
    obtain ⟨run, rfl⟩ := behindFirst_sound hf
    exact leaves_star.mpr ⟨run, _, rfl, (leaves_append hpr).mpr ⟨after, rfl, ih hparts haf⟩⟩

/-- The search leaves most of the text. -/
theorem behindParts_complete (h : Leaves (rooted '*' parts) rest left) :
    ∃ most, behindParts parts rest = some most ∧ left.length ≤ most.length := by
  induction parts generalizing rest left with
  | nil =>
    obtain ⟨_, rfl, rfl⟩ := h
    exact ⟨left, rfl, Nat.le_refl _⟩
  | cons part parts ih =>
    obtain ⟨hpr, hparts⟩ := forall_mem_cons.mp hparts
    obtain ⟨run, _, rfl, hrun⟩ := leaves_star.mp h
    obtain ⟨after, rfl, haf⟩ := (leaves_append hpr).mp hrun
    obtain ⟨more, hf⟩ := behindFirst_complete part run after
    rw [behindParts_cons, hf]
    cases parts with
    | nil =>
      obtain ⟨_, rfl, rfl⟩ := haf
      exact ⟨more ++ ([] ++ left), rfl, by simp⟩
    | cons next parts =>
      -- the star behind the part takes what the first place leaves in addition
      obtain ⟨run', rest, rfl, hrest⟩ := leaves_star.mp haf
      exact ih hparts (leaves_star.mpr ⟨more ++ run', rest, by simp, hrest⟩)

end

/-- The matcher accepts when what the search leaves is nothing, or the pattern ends in a star. -/
theorem globMatches_spec (pattern value : List Char) : ∃ found : Option (List Char),
    (globMatches pattern value = true ↔
      ∃ left, found = some left ∧ (pattern.getLast? = some '*' ∨ left = [])) ∧
    (∀ left, found = some left → Leaves pattern value left) ∧
    ∀ left, Leaves pattern value left → ∃ most, found = some most ∧ left.length ≤ most.length := by
  obtain ⟨f, parts, hsp, hpat, hf, hparts⟩ := exists_splitOn_eq '*' pattern
  refine ⟨(value.dropPrefix? f).bind (behindParts parts), ?_, ?_, ?_⟩
  · rw [globMatches]
    split
    · next heq =>
      subst heq
      obtain ⟨rfl, rfl⟩ := List.cons.inj (hsp.symm.trans (show _ = [[], []] from rfl))
      exact iff_of_true rfl ⟨value, by cases value <;> rfl, .inl rfl⟩
    · rw [hsp]
      dsimp only
      cases value.dropPrefix? f with
      | none => simp
      | some rest => cases hlf : behindParts parts rest <;> simp [hlf]
  · intro left h
    obtain ⟨rest, hdr, h⟩ := bind_eq_some_iff.mp h
    rw [hpat, leaves_append hf]
    exact ⟨rest, dropPrefix?_eq_some.mp hdr, behindParts_sound hparts h⟩
  · intro left h
    rw [hpat, leaves_append hf] at h
    obtain ⟨rest, hrest, h⟩ := h
    rw [dropPrefix?_eq_some.mpr hrest]
    exact behindParts_complete hparts h

/-- The matcher tells whether the pattern stands for the path exactly when the pattern ends in a
star, or it does not stand for both the path and a shorter beginning of the path. -/
theorem globMatches_correct_iff (pattern value : List Char) :
    (globMatches pattern value = true ↔ Matches pattern value) ↔
      pattern.getLast? = some '*' ∨
        ¬ (Matches pattern value ∧ ∃ used left, left ≠ [] ∧ value = used ++ left ∧
          Matches pattern used) := by
  obtain ⟨found, hglob, hsd, hcomp⟩ := globMatches_spec pattern value
  rw [hglob]
  by_cases hla : pattern.getLast? = some '*'
  · refine iff_of_true ⟨?_, fun h => ?_⟩ (.inl hla)
    · rintro ⟨left, hlf, -⟩
      exact matches_of_leaves hla (hsd left hlf)
    · obtain ⟨m, hmost, -⟩ := hcomp [] (leaves_nil.mpr h)
      exact ⟨m, hmost, .inl hla⟩
  · simp only [hla, false_or, exists_eq_right]
    constructor
    · rintro hiff ⟨hmt, used, left, hne, heq, hused⟩
      obtain ⟨m, hmost, hle⟩ := hcomp left ⟨used, heq, hused⟩
      obtain rfl := Option.some.inj (hmost.symm.trans (hiff.mpr hmt))
      exact hne (length_eq_zero_iff.mp (Nat.le_zero.mp hle))
    · refine fun hno => ⟨fun h => leaves_nil.mp (hsd [] h), fun hmt => ?_⟩
      obtain ⟨m, hmost, -⟩ := hcomp [] (leaves_nil.mpr hmt)
      by_contra hne
      obtain ⟨used, heq, hused⟩ := hsd m hmost
      exact hno ⟨hmt, used, m, fun hni => hne (hni ▸ hmost), heq, hused⟩

/-- `/a*b` stands for `/axbyb`, but the search stops at the first `b`. -/
theorem not_globMatches_repeated :
    ¬ (globMatches ['/', 'a', '*', 'b'] ['/', 'a', 'x', 'b', 'y', 'b'] = true ↔
      Matches ['/', 'a', '*', 'b'] ['/', 'a', 'x', 'b', 'y', 'b']) := by
  have hmt : Matches ['/', 'a', '*', 'b'] ['/', 'a', 'x', 'b', 'y', 'b'] := by
    refine (matches_append (show '*' ∉ ['/', 'a'] by decide) ..).mpr ⟨_, rfl, ?_⟩
    exact (matches_star ..).mpr ⟨['x', 'b', 'y'], ['b'], rfl,
      (matches_append (show '*' ∉ ['b'] by decide) [] _).mpr ⟨[], rfl, rfl⟩⟩
  intro h
  exact absurd (h.mpr hmt) (by decide)

end Pingclair.RetryPaths
