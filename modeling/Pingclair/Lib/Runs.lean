import Mathlib.Tactic.Common

/-!
# Runs

`Reachable allowed` are the states of the runs of a machine in which every event is one that
`allowed` admits in the state it finds. A history is a list of records, which events add to and
change one at a time; the lemmas at the end say what a change does to counts and projections of it.
-/

structure Machine (σ α : Type*) where
  start : σ
  step : σ → α → σ

namespace Machine

variable {σ α : Type*} (m : Machine σ α) {allowed : σ → α → Prop}

/-- The states of the runs whose events are all allowed. -/
inductive Reachable (allowed : σ → α → Prop) : σ → Prop
  | start : Reachable allowed m.start
  | step {s : σ} {a : α} : Reachable allowed s → allowed s a → Reachable allowed (m.step s a)

def run (events : List α) : σ := events.foldl m.step m.start

variable {m}

/-- What holds at the start and is kept by every allowed event holds in every state reached. -/
theorem Reachable.invariant {I : σ → Prop} {s : σ} (h : m.Reachable allowed s)
    (hst : I m.start) (hsp : ∀ s a, I s → allowed s a → I (m.step s a)) : I s := by
  induction h with
  | start => exact hst
  | step _ hallowed ih => exact hsp _ _ ih hallowed

variable (m) in
/-- Every one of some events is allowed in the state that it finds. -/
def Allows (allowed : σ → α → Prop) : σ → List α → Prop
  | _, [] => True
  | s, a :: events => allowed s a ∧ Allows allowed (m.step s a) events

instance Allows.decidable [∀ s a, Decidable (allowed s a)] :
    ∀ (s : σ) (events : List α), Decidable (m.Allows allowed s events)
  | _, [] => inferInstanceAs (Decidable True)
  | s, a :: events =>
    have := Allows.decidable (m.step s a) events
    inferInstanceAs (Decidable (allowed s a ∧ m.Allows allowed (m.step s a) events))

theorem Reachable.foldl {s : σ} {evs : List α} (hs : m.Reachable allowed s)
    (h : m.Allows allowed s evs) : m.Reachable allowed (evs.foldl m.step s) := by
  induction evs generalizing s with
  | nil => exact hs
  | cons a evs ih => exact ih (hs.step h.1) h.2

theorem reachable_run {evs : List α} (h : m.Allows allowed m.start evs) :
    m.Reachable allowed (m.run evs) :=
  Reachable.start.foldl h

/-- Two conditions that agree in the states an invariant admits, which the second one keeps, admit
the same events. -/
theorem allows_congr (I : σ → Prop) {o : σ → α → Prop} {s : σ} {events : List α}
    (hiff : ∀ s a, I s → (allowed s a ↔ o s a)) (hst : ∀ s a, I s → o s a → I (m.step s a))
    (hs : I s) : m.Allows allowed s events ↔ m.Allows o s events := by
  induction events generalizing s with
  | nil => rfl
  | cons a events ih =>
    show allowed s a ∧ _ ↔ o s a ∧ _
    rw [hiff s a hs]
    exact and_congr_right fun ho => ih (hst s a hs ho)

theorem allows_of_forall (h : ∀ s a, allowed s a) (s : σ) (events : List α) :
    m.Allows allowed s events := by
  induction events generalizing s with
  | nil => trivial
  | cons a events ih => exact ⟨h s a, ih _⟩

end Machine

theorem List.countP_set_add {α : Type*} {p : α → Bool} {l : List α} {i : Nat} {a b : α}
    (h : l[i]? = some a) :
    (l.set i b).countP p + (if p a then 1 else 0) = l.countP p + (if p b then 1 else 0) := by
  obtain ⟨hi, rfl⟩ := getElem?_eq_some_iff.mp h
  have hle : (if p l[i] then 1 else 0) ≤ l.countP p := by
    split
    · next hp => exact countP_pos_iff.mpr ⟨l[i], getElem_mem hi, hp⟩
    · exact Nat.zero_le _
  rw [countP_set hi]
  omega

theorem List.map_modify_of_eq {α β : Type*} {f : α → α} {g : α → β} (h : ∀ a, g (f a) = g a)
    (l : List α) (i : Nat) : (l.modify i f).map g = l.map g := by
  apply ext_getElem?
  intro j
  rw [getElem?_map, getElem?_map, getElem?_modify]
  split
  · rw [Option.map_eq_map, Option.map_map]
    exact congrArg (Option.map · _) (funext h)
  · simp

theorem List.exists_of_getElem?_modify {α : Type*} {f : α → α} {l : List α} {i j : Nat} {b : α}
    (h : (l.modify i f)[j]? = some b) : ∃ a, l[j]? = some a ∧ b = if i = j then f a else a := by
  rw [getElem?_modify, Option.map_eq_map, Option.map_eq_some_iff] at h
  obtain ⟨a, ha, rfl⟩ := h
  refine ⟨a, ha, ?_⟩
  split <;> rfl

theorem List.countP_split {α : Type*} (p q : α → Bool) (l : List α) :
    l.countP p = l.countP (fun a => p a && q a) + l.countP (fun a => p a && !q a) := by
  rw [countP_eq_countP_filter_add l p q, countP_filter, countP_filter]
