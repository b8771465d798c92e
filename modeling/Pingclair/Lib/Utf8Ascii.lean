import Pingclair.Lib.AsciiCase
import Pingclair.Lib.Utf8

/-!
# ASCII bytes of a text

An ASCII byte is a character of its own, wherever it stands. So a repair goes on anew behind it and
keeps it, and its case has nothing to do with whether a text is valid.
-/

namespace Utf8

open ByteText AsciiCase List Option

variable {ranges : List Range} {s t : Bytes} {b : UInt8}

def Continuing (ranges : List Range) : Prop := ∀ r ∈ ranges, 0x80 ≤ r.1

theorem continuing_nil : Continuing [] := by simp [Continuing]

theorem continuing_of_owed (h : owed b = some ranges) : Continuing ranges := fun r hr =>
  ((owed_ranges h).1 r hr).1

theorem Continuing.tail {range : Range} (h : Continuing (range :: ranges)) : Continuing ranges :=
  (forall_mem_cons.mp h).2

theorem owed_of_ascii (hb : b < 0x80) : owed b = some [] := by
  rw [owed, if_pos hb]

theorem Continuing.refuses {lo hi : UInt8} (h : Continuing ((lo, hi) :: ranges)) (hb : b < 0x80) :
    ¬ (lo ≤ b ∧ b ≤ hi) := by
  have hlo : 0x80 ≤ lo := h (lo, hi) mem_cons_self
  grind

theorem lossyFrom_nil_cons (pending : Bytes) :
    lossyFrom [] pending (b :: s) = lossyFrom [] [] (b :: s) := by
  rw [lossyFrom, lossyFrom]

theorem lossyFrom_append_ascii (hb : b < 0x80) (hrs : Continuing ranges) (pending : Bytes) :
    lossyFrom ranges pending (s ++ b :: t) = lossyFrom ranges pending s ++ b :: lossy t := by
  have hst : lossyFrom [] [] (b :: t) = b :: lossy t := by
    rw [lossyFrom, owed_of_ascii hb]
    rfl
  induction s generalizing ranges pending with
  | nil =>
    cases ranges with
    | nil =>
      rw [nil_append, lossyFrom_nil_cons, hst]
      rfl
    | cons range ranges =>
      rw [nil_append, lossyFrom_of_refused (hrs.refuses hb), hst]
      rfl
  | cons c s ih =>
    have hrest : lossyFrom [] [] (s ++ b :: t) = lossyFrom [] [] s ++ b :: lossy t :=
      ih continuing_nil []
    -- the first byte of a character
    have hf : lossyFrom [] [] (c :: (s ++ b :: t)) = lossyFrom [] [] (c :: s) ++ b :: lossy t := by
      rw [lossyFrom, lossyFrom]
      cases ho : owed c with
      | none =>
        rw [hrest, append_assoc]
      | some o =>
        cases o with
        | nil =>
          rw [hrest, cons_append]
        | cons range o => exact ih (continuing_of_owed ho) [c]
    cases ranges with
    | nil => rw [cons_append, lossyFrom_nil_cons, hf, lossyFrom_nil_cons pending]
    | cons range ranges =>
      obtain ⟨lo, hi⟩ := range
      rw [cons_append]
      by_cases hin : lo ≤ c ∧ c ≤ hi
      · cases ranges with
        | nil =>
          rw [lossyFrom, if_pos hin, lossyFrom, if_pos hin, hrest, append_assoc, cons_append]
        | cons range ranges =>
          rw [lossyFrom, if_pos hin, lossyFrom, if_pos hin]
          exact ih hrs.tail (pending ++ [c])
      · rw [lossyFrom_of_refused hin, lossyFrom_of_refused hin, hf, append_assoc]

theorem lossy_append_ascii (hb : b < 0x80) (s t : Bytes) :
    lossy (s ++ b :: t) = lossy s ++ b :: lossy t :=
  lossyFrom_append_ascii hb continuing_nil []

/-- A repair neither loses ASCII bytes nor brings them in. -/
theorem countP_lossyFrom {p : UInt8 → Bool} (hp : ∀ b, p b = true → b < 0x80)
    (hrs : Continuing ranges) {pending : Bytes} (hpend : pending.countP p = 0) :
    (lossyFrom ranges pending s).countP p = s.countP p := by
  have hhigh {c : UInt8} (hc : 0x80 ≤ c) : p c = false := by
    rw [← Bool.not_eq_true]
    intro htr
    grind
  have hrpl : replacement.countP p = 0 := by
    simp [replacement, hhigh]
  induction s generalizing ranges pending with
  | nil =>
    cases ranges with
    | nil => rw [lossyFrom]
    | cons range ranges => rw [lossyFrom, hrpl, countP_nil]
  | cons c s ih =>
    have hrest : (lossyFrom [] [] s).countP p = s.countP p := ih continuing_nil countP_nil
    have hf : (lossyFrom [] [] (c :: s)).countP p = (c :: s).countP p := by
      rw [lossyFrom]
      cases ho : owed c with
      | none =>
        have hc : p c = false := hhigh (by unfold owed at ho; grind)
        simp [hrpl, hrest, hc]
      | some o =>
        cases o with
        | nil => simp [countP_cons, hrest]
        | cons range o =>
          have hc : p c = false := hhigh (by unfold owed at ho; grind)
          rw [ih (continuing_of_owed ho) (by simp [hc]), countP_cons, hc]
          rfl
    cases ranges with
    | nil => rw [lossyFrom_nil_cons, hf]
    | cons range ranges =>
      obtain ⟨lo, hi⟩ := range
      by_cases hin : lo ≤ c ∧ c ≤ hi
      · have hlo : 0x80 ≤ lo := hrs (lo, hi) mem_cons_self
        have hc : p c = false := hhigh (by grind)
        cases ranges with
        | nil =>
          rw [lossyFrom, if_pos hin, countP_append, countP_cons, hrest, countP_cons]
          omega
        | cons range ranges =>
          rw [lossyFrom, if_pos hin, ih hrs.tail (by simp [hpend, hc]), countP_cons, hc]
          rfl
      · rw [lossyFrom_of_refused hin, countP_append, hrpl, hf, Nat.zero_add]

theorem countP_lossy {p : UInt8 → Bool} (hp : ∀ b, p b = true → b < 0x80) (s : Bytes) :
    (lossy s).countP p = s.countP p :=
  countP_lossyFrom hp continuing_nil countP_nil

theorem lower_lt (hb : b < 0x80) : lower b < 0x80 := by
  unfold lower isUpper
  grind

theorem lower_of_le (hb : 0x80 ≤ b) : lower b = b := by
  apply lower_of_not_isUpper
  unfold isUpper
  grind

theorem owed_lower (b : UInt8) : owed (lower b) = owed b := by
  by_cases hb : b < 0x80
  · rw [owed_of_ascii hb, owed_of_ascii (lower_lt hb)]
  · rw [lower_of_le (by grind)]

theorem validFrom_fold (hrs : Continuing ranges) :
    validFrom ranges (fold s) = validFrom ranges s := by
  induction s generalizing ranges with
  | nil => rfl
  | cons b s ih =>
    rw [fold_cons]
    cases ranges with
    | nil =>
      rw [validFrom, validFrom, owed_lower]
      cases ho : owed b with
      | none => rfl
      | some o => exact ih (continuing_of_owed ho)
    | cons range ranges =>
      rw [validFrom, validFrom, ih hrs.tail]
      by_cases hb : b < 0x80
      · rw [decide_eq_false (hrs.refuses hb), decide_eq_false (hrs.refuses (lower_lt hb))]
      · rw [lower_of_le (by grind)]

theorem valid_fold (s : Bytes) : valid (fold s) = valid s := validFrom_fold continuing_nil

end Utf8
