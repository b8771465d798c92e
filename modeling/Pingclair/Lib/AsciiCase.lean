import Pingclair.Lib.ByteText

/-!
# ASCII case

Folding the ASCII letters of a byte string to lower case. Two texts are equal ignoring
ASCII case when they fold to one text.
-/

namespace AsciiCase

open ByteText List

def isUpper (b : UInt8) : Bool := 0x41 ≤ b && b ≤ 0x5A

def lower (b : UInt8) : UInt8 := if isUpper b then b + 0x20 else b

def fold (s : Bytes) : Bytes := s.map lower

def eqIgnoreCase (s t : Bytes) : Bool := fold s == fold t

theorem lower_of_not_isUpper {b : UInt8} (h : isUpper b = false) : lower b = b := by
  simp [lower, h]

theorem isUpper_lower (b : UInt8) : isUpper (lower b) = false := by
  unfold lower isUpper
  split <;> grind

@[simp] theorem lower_lower (b : UInt8) : lower (lower b) = lower b :=
  lower_of_not_isUpper (isUpper_lower b)

@[simp] theorem fold_nil : fold [] = [] := rfl

@[simp] theorem fold_cons (b : UInt8) (s : Bytes) : fold (b :: s) = lower b :: fold s := rfl

@[simp] theorem fold_append (s t : Bytes) : fold (s ++ t) = fold s ++ fold t := map_append

@[simp] theorem length_fold (s : Bytes) : (fold s).length = s.length := length_map _

theorem fold_take (n : Nat) (s : Bytes) : fold (s.take n) = (fold s).take n := map_take

theorem fold_drop (n : Nat) (s : Bytes) : fold (s.drop n) = (fold s).drop n := map_drop

theorem fold_append_drop (n : Nat) (s : Bytes) : fold (s.take n) ++ fold (s.drop n) = fold s := by
  rw [← fold_append, take_append_drop]

@[simp] theorem fold_fold (s : Bytes) : fold (fold s) = fold s := by
  simp [fold]

@[simp] theorem eqIgnoreCase_iff {s t : Bytes} : eqIgnoreCase s t = true ↔ fold s = fold t := by
  simp [eqIgnoreCase]

theorem lower_eq_iff {b c : UInt8} (hc : c < 0x41) : lower b = c ↔ b = c := by
  unfold lower isUpper
  split <;> grind

theorem splitOn_fold {sep : UInt8} (hsep : sep < 0x41) (s : Bytes) :
    (fold s).splitOn sep = (s.splitOn sep).map fold := by
  induction s with
  | nil => rfl
  | cons b s ih =>
    have hb : (lower b == sep) = (b == sep) := by
      rw [Bool.eq_iff_iff, beq_iff_eq, beq_iff_eq, lower_eq_iff hsep]
    rw [fold_cons, splitOn_cons_eq_if_modifyHead, splitOn_cons_eq_if_modifyHead, hb, ih]
    obtain ⟨seg, ss, hsp⟩ := exists_cons_of_ne_nil (splitOn_ne_nil sep s)
    split <;> simp [hsp]

theorem fold_of_no_upper {s : Bytes} (h : s.any isUpper = false) : fold s = s := by
  have hlower : ∀ b ∈ s, lower b = b := fun b hb =>
    lower_of_not_isUpper (by simpa using any_eq_false.mp h b hb)
  exact (map_congr_left hlower).trans s.map_id

end AsciiCase
