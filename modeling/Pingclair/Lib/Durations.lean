import Mathlib.Algebra.Group.Nat.Defs
import Mathlib.Order.Nat

/-!
# Machine numbers and durations

The bounds of Rust's unsigned integers, and `std::time::Duration` as a number of nanoseconds.
-/

def u32Max : Nat := 2 ^ 32 - 1

def u64Max : Nat := 2 ^ 64 - 1

def nanosPerSecond : Nat := 10 ^ 9

def durationMax : Nat := u64Max * nanosPerSecond + (nanosPerSecond - 1)

def asMillis (duration : Nat) : Nat := duration / 10 ^ 6 % 2 ^ 64
