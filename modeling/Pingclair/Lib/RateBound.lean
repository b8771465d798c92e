import Mathlib.Algebra.Order.Field.Basic
import Mathlib.Tactic.Linarith
import Mathlib.Tactic.Ring

/-!
# Counting calls against a reserve

Suppose every state has a reserve at every time: between zero and a cap, growing at most at a given
rate, and one less after every call that is counted. Then the calls counted in an interval are at
most the cap plus the rate times the length of the interval.
-/

structure CallSystem (σ α 𝕜 : Type*) where
  step : σ → α → σ
  time : α → 𝕜
  counted : σ → α → Bool

namespace CallSystem

variable {σ α 𝕜 : Type*} [LinearOrder 𝕜] (sys : CallSystem σ α 𝕜)

/-- The calls of a run that are counted and made from `t₁` to `t₂`. -/
def count (t₁ t₂ : 𝕜) : σ → List α → ℕ
  | _, [] => 0
  | s, a :: calls =>
    (if sys.counted s a ∧ t₁ ≤ sys.time a ∧ sys.time a ≤ t₂ then 1 else 0) +
      count t₁ t₂ (sys.step s a) calls

/-- Calls at non-decreasing times, none before `t`. -/
def From (t : 𝕜) : List α → Prop
  | [] => True
  | a :: calls => t ≤ sys.time a ∧ From (sys.time a) calls

variable {sys} {t t₁ t₂ : 𝕜} {s : σ} {calls : List α}

theorem from_of_pairwise (h : calls.Pairwise fun a b => sys.time a ≤ sys.time b)
    (ht : ∀ a ∈ calls, t ≤ sys.time a) : sys.From t calls := by
  induction calls generalizing t with
  | nil => trivial
  | cons a calls ih =>
    rw [List.pairwise_cons] at h
    exact ⟨ht a List.mem_cons_self, ih h.2 h.1⟩

theorem count_eq_zero (h : sys.From t calls) (ht : t₂ < t) : sys.count t₁ t₂ s calls = 0 := by
  induction calls generalizing s t with
  | nil => rfl
  | cons a calls ih =>
    have hla : t₂ < sys.time a := ht.trans_le h.1
    rw [count, ih h.2 hla, if_neg fun hin => hla.not_ge hin.2.2]

variable [Field 𝕜] [IsStrictOrderedRing 𝕜]

variable (sys) in
/-- What is left to spend in a state at a time. `Valid s t` says that `s` can be the state at
time `t`. -/
structure Reserve (cap rate : 𝕜) where
  Valid : σ → 𝕜 → Prop
  level : σ → 𝕜 → 𝕜
  nonneg : ∀ {s t}, Valid s t → 0 ≤ level s t
  le_cap : ∀ {s t}, Valid s t → level s t ≤ cap
  rate_nonneg : 0 ≤ rate
  wait : ∀ {s t u}, Valid s t → t ≤ u → Valid s u ∧ level s u ≤ level s t + rate * (u - t)
  call : ∀ {s a}, Valid s (sys.time a) → Valid (sys.step s a) (sys.time a) ∧
    level (sys.step s a) (sys.time a) + (if sys.counted s a then 1 else 0) ≤ level s (sys.time a)

namespace Reserve

variable {cap rate : 𝕜} (R : sys.Reserve cap rate)

include R

theorem grow_nonneg {u : 𝕜} (h : t ≤ u) : 0 ≤ rate * (u - t) :=
  mul_nonneg R.rate_nonneg (sub_nonneg.mpr h)

/-- From inside the interval on, the reserve and what it grows by pay for every call. -/
theorem count_le_level (hs : R.Valid s t) (hcalls : sys.From t calls) (ht : t ≤ t₂) :
    (sys.count t₁ t₂ s calls : 𝕜) ≤ R.level s t + rate * (t₂ - t) := by
  induction calls generalizing s t with
  | nil =>
    rw [count, Nat.cast_zero]
    exact add_nonneg (R.nonneg hs) (R.grow_nonneg ht)
  | cons a calls ih =>
    obtain ⟨hta, hrest⟩ := hcalls
    obtain ⟨hv, hwt⟩ := R.wait hs hta
    by_cases hla : sys.time a ≤ t₂
    · obtain ⟨hnx, hcall⟩ := R.call hv
      have hone : ((if sys.counted s a ∧ t₁ ≤ sys.time a ∧ sys.time a ≤ t₂ then 1 else 0 : ℕ) : 𝕜) ≤
          if sys.counted s a then 1 else 0 := by
        by_cases hc : sys.counted s a = true
        · split <;> simp
        · simp [hc]
      have hih := ih hnx hrest hla
      rw [count, Nat.cast_add]
      linarith
    · rw [count_eq_zero (show sys.From (sys.time a) (a :: calls) from ⟨le_rfl, hrest⟩)
        (not_le.mp hla), Nat.cast_zero]
      exact add_nonneg (R.nonneg hs) (R.grow_nonneg ht)

/-- The calls counted in an interval are at most the cap plus what the interval adds. -/
theorem count_le (hs : R.Valid s t) (hcalls : sys.From t calls) (h : t₁ ≤ t₂) :
    (sys.count t₁ t₂ s calls : 𝕜) ≤ cap + rate * (t₂ - t₁) := by
  have hcap : 0 ≤ cap := (R.nonneg hs).trans (R.le_cap hs)
  induction calls generalizing s t with
  | nil =>
    rw [count, Nat.cast_zero]
    exact add_nonneg hcap (R.grow_nonneg h)
  | cons a calls ih =>
    obtain ⟨hta, hrest⟩ := hcalls
    have hv := (R.wait hs hta).1
    have hfr : sys.From (sys.time a) (a :: calls) := ⟨le_rfl, hrest⟩
    by_cases hearly : sys.time a < t₁
    · -- before the interval the call is not counted
      rw [count, if_neg fun hin => hearly.not_ge hin.2.1, zero_add]
      exact ih (R.call hv).1 hrest
    · have hst : t₁ ≤ sys.time a := not_lt.mp hearly
      by_cases hla : sys.time a ≤ t₂
      · have hgrow : rate * (t₂ - sys.time a) ≤ rate * (t₂ - t₁) :=
          mul_le_mul_of_nonneg_left (sub_le_sub_left hst t₂) R.rate_nonneg
        calc (sys.count t₁ t₂ s (a :: calls) : 𝕜)
            ≤ R.level s (sys.time a) + rate * (t₂ - sys.time a) := R.count_le_level hv hfr hla
          _ ≤ cap + rate * (t₂ - t₁) := add_le_add (R.le_cap hv) hgrow
      · rw [count_eq_zero hfr (not_le.mp hla), Nat.cast_zero]
        exact add_nonneg hcap (R.grow_nonneg h)

end Reserve

end CallSystem
