import Mathlib.Data.Nat.Digits.Defs
import Pingclair.Lib.ByteText

/-!
# Numbers as text

`numeral` writes a number in a base up to 36, and `parseUnsigned` reads a decimal number the
way a program with fixed-width integers does: a sign `+` may stand in front, at least one digit
must follow, nothing else may, and the number must not exceed a bound.
-/

namespace Numerals

open ByteText

def digit (n : Nat) : UInt8 := if n < 10 then 0x30 + n.toUInt8 else 0x57 + n.toUInt8

def undigit (b : UInt8) : Nat := if b < 0x3A then b.toNat - 0x30 else b.toNat - 0x57

def numeral (base n : Nat) : Bytes :=
  if n = 0 then [digit 0] else ((Nat.digits base n).map digit).reverse

def decimal (n : Nat) : Bytes := numeral 10 n

section

variable {base : Nat} (hbase : 1 < base)

include hbase

theorem exists_digit_of_mem_numeral {n : Nat} {b : UInt8} (h : b ∈ numeral base n) :
    ∃ d < base, digit d = b := by
  rw [numeral] at h
  split_ifs at h
  · exact ⟨0, by omega, (List.mem_singleton.mp h).symm⟩
  · obtain ⟨d, hd, rfl⟩ := List.mem_map.mp (List.mem_reverse.mp h)
    exact ⟨d, Nat.digits_lt_base hbase hd, rfl⟩

theorem numeral_injective (hdg : base ≤ 36) : Function.Injective (numeral base) := by
  have hv : ∀ d < 36, undigit (digit d) = d := by decide
  -- the digits, read back from the right, give the number
  apply Function.LeftInverse.injective (g := fun s => Nat.ofDigits base (s.reverse.map undigit))
  intro n
  by_cases hn : n = 0
  · subst hn
    simp [numeral, hv]
  · have hrd : (Nat.digits base n).map (undigit ∘ digit) = Nat.digits base n := by
      refine (List.map_congr_left fun d hd => ?_).trans (List.map_id _)
      exact hv d ((Nat.digits_lt_base hbase hd).trans_le hdg)
    simp only [numeral, hn, if_false, List.reverse_reverse, List.map_map, hrd]
    exact Nat.ofDigits_digits base n

end

def digitValue (b : UInt8) : Option Nat :=
  if 0x30 ≤ b && b ≤ 0x39 then some (b.toNat - 0x30) else none

/-- Decimal digits, and nothing else, behind the digits read so far. -/
def parseDigits : (sofar : Nat) → Bytes → Option Nat
  | sofar, [] => some sofar
  | sofar, b :: rest =>
    match digitValue b with
    | some d => parseDigits (10 * sofar + d) rest
    | none => none

def parseUnsigned (bound : Nat) (s : Bytes) : Option Nat :=
  let digits := (s.dropPrefix? [0x2B]).getD s
  if digits = [] then none else (parseDigits 0 digits).filter (· ≤ bound)

example : decimal 1048576 = ascii "1048576" := by decide +kernel

example : parseUnsigned 65535 (ascii "+80") = some 80 := by decide +kernel

end Numerals
