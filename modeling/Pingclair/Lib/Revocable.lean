import Mathlib.Algebra.Group.Nat.Defs
import Mathlib.Order.Nat

/-!
# Revocable cells

A revocation takes two steps: the value of a cell is cleared, then its epoch moves on. A reader
loads the epoch, then the value, and asks later, by the epoch alone, whether it may still use the
value. Writers do not overlap. A cell keeps, for the proofs only, when its value was stored and when
its revocations ended.
-/

/-- A cell of values of one type, with an epoch of 64 bits. -/
structure Revocable (V : Type*) where
  value : Option (Nat × V)
  epoch : Nat
  /-- The times at which revocations ended. -/
  revoked : List Nat

namespace Revocable

variable {V : Type*} {cell : Revocable V} {epoch published time : Nat}

def empty : Revocable V := ⟨none, 0, []⟩

def store (cell : Revocable V) (time : Nat) (value : V) : Revocable V :=
  { cell with value := some (time, value) }

def clear (cell : Revocable V) : Revocable V := { cell with value := none }

def advance (cell : Revocable V) (time : Nat) : Revocable V :=
  { cell with epoch := (cell.epoch + 1) % 2 ^ 64, revoked := time :: cell.revoked }

/-- The epoch counts the revocations, and the value is younger than all of them. -/
structure Sound (cell : Revocable V) : Prop where
  epoch_eq : cell.epoch = cell.revoked.length % 2 ^ 64
  revoked_lt : ∀ entry ∈ cell.value, ∀ t ∈ cell.revoked, t < entry.1

theorem sound_empty : (empty : Revocable V).Sound := ⟨rfl, by simp [empty]⟩

theorem Sound.store (h : cell.Sound) (htime : ∀ t ∈ cell.revoked, t < time) (value : V) :
    (cell.store time value).Sound := by
  refine ⟨h.epoch_eq, ?_⟩
  intro entry he
  cases Option.some.inj he
  exact htime

theorem Sound.clear (h : cell.Sound) : cell.clear.Sound := ⟨h.epoch_eq, by simp [Revocable.clear]⟩

theorem Sound.advance (h : cell.Sound) (hnone : cell.value = none) (time : Nat) :
    (cell.advance time).Sound := by
  refine ⟨?_, ?_⟩
  · show (cell.epoch + 1) % 2 ^ 64 = (time :: cell.revoked).length % 2 ^ 64
    rw [h.epoch_eq, List.length_cons, Nat.mod_add_mod]
  · intro entry he
    rw [show (cell.advance time).value = none from hnone] at he
    simp at he

/-- What a reader knows of an epoch and of a value that it loaded after it: unless the epoch moved
on since, the value is younger than every revocation. -/
structure Holds (cell : Revocable V) (epoch published : Nat) : Prop where
  epoch_le : epoch ≤ cell.revoked.length
  revoked_lt : epoch = cell.revoked.length → ∀ t ∈ cell.revoked, t < published

theorem Sound.holds (h : cell.Sound) (hepoch : epoch ≤ cell.revoked.length) {entry : Nat × V}
    (he : entry ∈ cell.value) : cell.Holds epoch entry.1 :=
  ⟨hepoch, fun _ => h.revoked_lt entry he⟩

theorem Holds.advance (h : cell.Holds epoch published) (time : Nat) :
    (cell.advance time).Holds epoch published := by
  have hlen : (cell.advance time).revoked.length = cell.revoked.length + 1 := rfl
  have hle := h.epoch_le
  exact ⟨by omega, fun heq => by omega⟩

/-- A reader that finds the epoch it loaded holds a value that is younger than every revocation
that ended. -/
theorem Holds.lt_of_epoch_eq (h : cell.Holds epoch published) (hsd : cell.Sound)
    (hbd : cell.revoked.length < 2 ^ 64) (heq : cell.epoch = epoch) :
    ∀ t ∈ cell.revoked, t < published := by
  apply h.revoked_lt
  rw [← heq, hsd.epoch_eq, Nat.mod_eq_of_lt hbd]

end Revocable
