import Mathlib.Tactic.Linarith

/-!
# Recurring instants

An instant recurs once in every period, at a phase. `turns` goes up by one at each recurrence, so
one of them lies between two instants exactly when the values differ. `ahead` is what sets the
periods of a clock that runs `offset` ahead apart, beside the whole periods of the offset.
-/

namespace Periodic

/-- How many times the phase has come up to an instant. -/
def turns (period phase x : Int) : Int := (x - phase) / period

/-- Whether the clock that runs ahead has begun its next period already. -/
def ahead (period offset x : Int) : Bool := period ≤ x % period + offset % period

variable {period phase offset x y : Int}

theorem exists_turn_iff (hph : 0 ≤ phase) (hlt : phase < period) :
    (∃ t, x < t ∧ t ≤ y ∧ t % period = phase) ↔ turns period phase x < turns period phase y := by
  have hp : 0 < period := hph.trans_lt hlt
  unfold turns
  constructor
  · rintro ⟨t, hxt, hty, ht⟩
    have hdiv : t - phase = t / period * period := by
      have := Int.mul_ediv_add_emod t period
      linarith
    calc (x - phase) / period < t / period := Int.ediv_lt_of_lt_mul hp (by linarith)
      _ ≤ (y - phase) / period := Int.le_ediv_of_mul_le hp (by linarith)
  · intro h
    refine ⟨phase + (y - phase) / period * period, ?_, ?_, ?_⟩
    · have := Int.lt_mul_of_ediv_lt hp h
      linarith
    · have := Int.ediv_mul_le (y - phase) hp.ne'
      linarith
    · rw [Int.add_mul_emod_self_right, Int.emod_eq_of_lt hph hlt]

theorem turns_add_one (hph : 0 ≤ phase) (hlt : phase < period) (x : Int) :
    turns period phase x + 1 = x / period + if phase ≤ x % period then 1 else 0 := by
  have hp : 0 < period := hph.trans_lt hlt
  have hx := Int.mul_ediv_add_emod x period
  have hnonneg := Int.emod_nonneg x hp.ne'
  have hmod := Int.emod_lt_of_pos x hp
  unfold turns
  have hsp : x - phase = x % period - phase + x / period * period := by linarith
  rw [hsp, Int.add_mul_ediv_right _ _ hp.ne']
  split
  · next hrc =>
    have : (x % period - phase) / period = 0 := Int.ediv_eq_zero_of_lt (by linarith) (by linarith)
    linarith
  · next hb =>
    have : (x % period - phase) / period = -1 := by
      rw [Int.ediv_eq_iff_of_pos hp]
      constructor <;> linarith
    linarith

theorem add_ediv_eq (hp : 0 < period) (x offset : Int) :
    (x + offset) / period =
      x / period + offset / period + if ahead period offset x then 1 else 0 := by
  have hx := Int.mul_ediv_add_emod x period
  have ho := Int.mul_ediv_add_emod offset period
  have hsum : x + offset =
      x % period + offset % period + (x / period + offset / period) * period := by linarith
  have hxnonneg := Int.emod_nonneg x hp.ne'
  have hononneg := Int.emod_nonneg offset hp.ne'
  have hxlt := Int.emod_lt_of_pos x hp
  have holt := Int.emod_lt_of_pos offset hp
  rw [hsum, Int.add_mul_ediv_right _ _ hp.ne', ahead]
  by_cases h : period ≤ x % period + offset % period
  · have : (x % period + offset % period) / period = 1 := by
      rw [Int.ediv_eq_iff_of_pos hp]
      constructor <;> linarith
    simp [h]
    linarith
  · have : (x % period + offset % period) / period = 0 :=
      Int.ediv_eq_zero_of_lt (by linarith) (by linarith)
    simp [h]
    linarith

end Periodic
