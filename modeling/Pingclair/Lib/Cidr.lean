import Mathlib.Tactic.Linarith

/-!
# Blocks of addresses

A block is the numbers of a width that agree with a number in their leading bits. Two blocks are
disjoint, or one lies in the other.
-/

namespace Cidr

/-- The numbers of `bits` bits that agree with `value` in the leading `length` ones. -/
structure Block (bits : Nat) where
  value : Nat
  length : Nat
  length_le : length ≤ bits
  deriving DecidableEq

namespace Block

variable {bits : Nat}

def size (block : Block bits) : Nat := 2 ^ (bits - block.length)

def network (block : Block bits) : Nat := block.value / block.size * block.size

def broadcast (block : Block bits) : Nat := block.network + (block.size - 1)

def contains (block : Block bits) (x : Nat) : Bool := block.network ≤ x && x ≤ block.broadcast

def containsBlock (block other : Block bits) : Bool :=
  block.network ≤ other.network && other.broadcast ≤ block.broadcast

variable {a b : Block bits} {x : Nat} (block : Block bits)

theorem size_pos : 0 < block.size := Nat.two_pow_pos _

theorem contains_iff : a.contains x = true ↔ x / a.size = a.value / a.size := by
  have hp := a.size_pos
  rw [contains, Bool.and_eq_true, decide_eq_true_iff, decide_eq_true_iff, broadcast, network,
    Nat.div_eq_iff hp]
  omega

theorem network_div_size : block.network / block.size = block.value / block.size :=
  Nat.mul_div_cancel _ block.size_pos

theorem contains_network : block.contains block.network = true := by
  rw [contains_iff, network_div_size]

theorem size_dvd_size (h : a.length ≤ b.length) : b.size ∣ a.size := Nat.pow_dvd_pow 2 (by omega)

theorem contains_of_contains (hle : a.length ≤ b.length) (ha : a.contains x = true)
    (hb : b.contains x = true) {y : Nat} (hy : b.contains y = true) : a.contains y = true := by
  rw [contains_iff] at ha hb hy ⊢
  obtain ⟨k, hk⟩ := size_dvd_size hle
  have hdiv (z : Nat) : z / a.size = z / b.size / k := by rw [hk, Nat.div_div_eq_div_mul]
  rw [hdiv, hy, ← hb, ← hdiv, ha]

theorem contains_network_of_mem (ha : a.contains x = true) (hb : b.contains x = true) :
    a.contains b.network = true ∨ b.contains a.network = true := by
  rcases Nat.le_total a.length b.length with hle | hle
  · exact .inl (contains_of_contains hle ha hb b.contains_network)
  · exact .inr (contains_of_contains hle hb ha a.contains_network)

theorem containsBlock_iff :
    a.containsBlock b = true ↔ ∀ x, b.contains x = true → a.contains x = true := by
  have hbroadcast : b.contains b.broadcast = true := by simp [contains, broadcast]
  simp only [containsBlock, Bool.and_eq_true, decide_eq_true_iff]
  constructor
  · rintro ⟨hf, hla⟩ x hx
    simp only [contains, Bool.and_eq_true, decide_eq_true_iff] at hx ⊢
    omega
  · intro ha
    have hf := ha b.network b.contains_network
    have hla := ha b.broadcast hbroadcast
    simp only [contains, Bool.and_eq_true, decide_eq_true_iff] at hf hla
    exact ⟨hf.1, hla.2⟩

end Block

end Cidr
