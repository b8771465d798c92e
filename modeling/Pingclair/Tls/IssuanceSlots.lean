import Mathlib.Data.List.AList
import Pingclair.Lib.ByteText
import Pingclair.Lib.Runs

/-!
# Slots to issue certificates

A slot is the right to issue for a domain. The table of domains in flight has a handle for each,
which later callers wait on. A slot is released by its domain, whatever the table has under it by
then, and a cancellation empties the table while slots are still held.
-/

namespace Pingclair.IssuanceSlots

open ByteText

variable {D : Type}

/-- A slot that was claimed, with the number of cancellations before. -/
structure IssuanceSlot (D : Type) where
  domain : D
  epoch : Nat
  held : Bool
  deriving DecidableEq

/-- The table, and all slots so far. A handle is named by the place of the slot it was made for; a
waiter is the handle it is armed on, and whether it was woken. -/
structure State (D : Type) where
  processing : AList fun _ : D => Nat
  slots : List (IssuanceSlot D)
  waiters : List (Nat × Bool)
  cancellations : Nat

inductive Event (D : Type)
  | claim (domain : D)
  /-- A slot goes, also with a future that is dropped. -/
  | drop (slot : Nat)
  | cancel

namespace State

def notifyWaiters (s : State D) (handles : Nat → Bool) : List (Nat × Bool) :=
  s.waiters.map fun waiter => (waiter.1, waiter.2 || handles waiter.1)

variable [DecidableEq D]

def claim (s : State D) (domain : D) : State D :=
  match s.processing.lookup domain with
  | some notify => { s with waiters := s.waiters ++ [(notify, false)] }
  | none =>
    { s with
      processing := s.processing.insert domain s.slots.length
      slots := s.slots ++ [⟨domain, s.cancellations, true⟩] }

def drop (s : State D) (i : Nat) : State D :=
  match s.slots[i]? with
  | some slot =>
    if slot.held then
      let slots := s.slots.set i { slot with held := false }
      match s.processing.lookup slot.domain with
      | some notify =>
        { s with
          slots
          processing := s.processing.erase slot.domain
          waiters := s.notifyWaiters (· == notify) }
      | none => { s with slots }
    else s
  | none => s

/-- The waiters are woken behind the lock, through handles that nobody else can reach by then. -/
def cancelPendingIssuance (s : State D) : State D :=
  { s with
    processing := ∅
    waiters := s.notifyWaiters fun handle => s.processing.entries.any (·.2 == handle)
    cancellations := s.cancellations + 1 }

/-- A slot that is held, and was claimed since the last cancellation. -/
def Current (s : State D) (i : Nat) (domain : D) : Prop :=
  ∃ slot, s.slots[i]? = some slot ∧ slot.domain = domain ∧ slot.held = true ∧
    slot.epoch = s.cancellations

/-- A slot that was claimed before the last cancellation, and is held. -/
def Outdated (s : State D) (i : Nat) (domain : D) : Prop :=
  ∃ slot, s.slots[i]? = some slot ∧ slot.domain = domain ∧ slot.held = true ∧
    slot.epoch < s.cancellations

end State

variable [DecidableEq D]

def issuance : Machine (State D) (Event D) where
  start := ⟨∅, [], [], 0⟩
  step s
    | .claim domain => s.claim domain
    | .drop i => s.drop i
    | .cancel => s.cancelPendingIssuance

/-- After a step every domain has one current slot at most, and the release of a slot from before a
cancellation did nothing to the table and to the waiters. -/
structure Exclusive (s : State D) (event : Event D) : Prop where
  one : ∀ i j domain, (issuance.step s event).Current i domain →
    (issuance.step s event).Current j domain → i = j
  apart : ∀ i domain, event = .drop i → s.Outdated i domain →
    (s.drop i).processing = s.processing ∧ (s.drop i).waiters = s.waiters

/-- No slot from before the last cancellation is released while its domain has a current one. -/
def Orderly (s : State D) (event : Event D) : Prop :=
  ∀ i domain, event = .drop i → s.Outdated i domain → ∀ j, ¬ s.Current j domain

/-- The table has the current slots. -/
structure Kept (s : State D) : Prop where
  table : ∀ i domain, s.processing.lookup domain = some i ↔ s.Current i domain
  epoch_le : ∀ slot ∈ s.slots, slot.epoch ≤ s.cancellations

variable {s : State D}

theorem Kept.claim (h : Kept s) (domain : D) : Kept (s.claim domain) := by
  rw [State.claim]
  split
  · exact ⟨h.table, h.epoch_le⟩
  · next ho =>
    refine ⟨fun i d => ?_, fun sl hs => ?_⟩
    · have hi := h.table i d
      by_cases hd : d = domain
      · subst hd
        rw [AList.lookup_insert, Option.some_inj]
        constructor
        · rintro rfl
          exact ⟨_, List.getElem?_concat_length, rfl, rfl, rfl⟩
        · rintro ⟨sl, hs, hr⟩
          rw [List.getElem?_append] at hs
          split at hs
          · exact absurd (hi.mpr ⟨sl, hs, hr⟩) (by simp [ho])
          · grind
      · rw [AList.lookup_insert_ne hd, hi]
        simp only [State.Current]
        grind
    · obtain hs | hs := List.mem_append.mp hs
      · exact h.epoch_le sl hs
      · rw [List.mem_singleton.mp hs]

theorem Kept.cancel (h : Kept s) : Kept s.cancelPendingIssuance := by
  refine ⟨fun i d => ?_, fun sl hs => (h.epoch_le sl hs).trans (Nat.le_succ _)⟩
  refine iff_of_false (by simp [State.cancelPendingIssuance]) ?_
  rintro ⟨sl, hs, -, -, he⟩
  have hle := h.epoch_le sl (List.mem_of_getElem? hs)
  change sl.epoch = s.cancellations + 1 at he
  omega

variable {i : Nat} {slot : IssuanceSlot D}

/-- Under the domain of a slot that is held, an orderly release finds that slot or nothing. -/
theorem Kept.lookup_eq_some_iff (h : Kept s) {j : Nat} (ho : Orderly s (.drop i))
    (hs : s.slots[i]? = some slot) (hh : slot.held = true) :
    s.processing.lookup slot.domain = some j ↔ j = i ∧ slot.epoch = s.cancellations := by
  constructor
  · intro hj
    have hc := (h.table j _).mp hj
    obtain he | he := (h.epoch_le slot (List.mem_of_getElem? hs)).lt_or_eq
    · exact absurd hc (ho i _ rfl ⟨slot, hs, rfl, hh, he⟩ j)
    · have hi := (h.table i _).mpr ⟨slot, hs, rfl, hh, he⟩
      exact ⟨Option.some_inj.mp (hj.symm.trans hi), he⟩
  · rintro ⟨rfl, he⟩
    exact (h.table j _).mpr ⟨slot, hs, rfl, hh, he⟩

theorem State.drop_slots (s : State D) (hs : s.slots[i]? = some slot) (hh : slot.held = true) :
    (s.drop i).slots = s.slots.set i { slot with held := false } ∧
      (s.drop i).cancellations = s.cancellations := by
  simp only [State.drop, hs, hh, if_true]
  split <;> exact ⟨rfl, rfl⟩

theorem State.current_drop (s : State D) {j : Nat} {d : D} (hs : s.slots[i]? = some slot)
    (hh : slot.held = true) : (s.drop i).Current j d ↔ j ≠ i ∧ s.Current j d := by
  simp only [State.Current, s.drop_slots hs hh, List.getElem?_set]
  grind

theorem Kept.drop (h : Kept s) (ho : Orderly s (.drop i)) : Kept (s.drop i) := by
  by_cases hr : ∃ sl, s.slots[i]? = some sl ∧ sl.held = true
  · obtain ⟨sl, hs, hh⟩ := hr
    have hf := fun j => h.lookup_eq_some_iff (j := j) ho hs hh
    refine ⟨fun j d => ?_, fun e he => ?_⟩
    · rw [s.current_drop hs hh, ← h.table]
      simp only [State.drop, hs, hh, if_true]
      split
      · next n hn =>
        obtain ⟨rfl, he⟩ := (hf n).mp hn
        by_cases hd : d = sl.domain
        · subst hd
          rw [AList.lookup_erase, hf]
          grind
        · rw [AList.lookup_erase_ne hd]
          -- The slot is held for its own domain only.
          have hj := h.table n d
          simp only [State.Current, hs] at hj
          grind
      · next hn =>
        have hj := h.table i d
        simp only [State.Current, hs] at hj
        grind
    · rw [(s.drop_slots hs hh).1] at he
      rw [(s.drop_slots hs hh).2]
      obtain he | rfl := List.mem_or_eq_of_mem_set he
      · exact h.epoch_le e he
      · exact h.epoch_le sl (List.mem_of_getElem? hs)
  · have hsm : s.drop i = s := by
      rw [State.drop]
      split
      · next sl hs =>
        rw [if_neg fun hh => hr ⟨sl, hs, hh⟩]
      · rfl
    rwa [hsm]

theorem Kept.step (h : Kept s) {ev : Event D} (ho : Orderly s ev) : Kept (issuance.step s ev) := by
  cases ev with
  | claim d => exact h.claim d
  | drop i => exact h.drop ho
  | cancel => exact h.cancel

theorem Kept.exclusive_iff (h : Kept s) (event : Event D) :
    Exclusive s event ↔ Orderly s event := by
  constructor
  · rintro ⟨-, ha⟩ i dm rfl ⟨sl, hs, rfl, hh, he⟩ j hc
    have hj := (h.table j _).mpr hc
    have hp := (ha i _ rfl ⟨sl, hs, rfl, hh, he⟩).1
    simp only [State.drop, hs, hh, hj, if_true] at hp
    rw [← hp, AList.lookup_erase] at hj
    simp at hj
  · intro ho
    refine ⟨fun i j d hi hj => ?_, fun i d he hd => ?_⟩
    · rw [← (h.step ho).table] at hi hj
      exact Option.some_inj.mp (hi.symm.trans hj)
    · subst he
      obtain ⟨sl, hs, rfl, hh, he⟩ := hd
      have hn : s.processing.lookup sl.domain = none := by
        rw [Option.eq_none_iff_forall_ne_some]
        intro j hj
        exact he.ne ((h.lookup_eq_some_iff ho hs hh).mp hj).2
      simp [State.drop, hs, hh, hn]

/-- Slots are exclusive, and a cancellation sets old ones apart from new ones, through exactly the
runs that release no slot from before a cancellation while its domain has a newer one. -/
theorem exclusive_iff_orderly (events : List (Event D)) :
    issuance.Allows Exclusive issuance.start events ↔
      issuance.Allows Orderly issuance.start events := by
  apply Machine.allows_congr Kept
  · exact fun s e h => h.exclusive_iff e
  · exact fun s e h ho => h.step ho
  · refine ⟨fun i d => iff_of_false ?_ ?_, fun sl hs => ?_⟩
    · simp [issuance]
    · simp [issuance, State.Current]
    · simp [issuance] at hs

/-- The slot that was claimed first is released behind a cancellation, and with it the table loses
the domain that the second slot is held for. -/
theorem issues_twice : ∃ events : List (Event Bytes),
    ¬ issuance.Allows Exclusive issuance.start events ∧
      (issuance.run events).Current 1 (ascii "a.test") ∧
      (issuance.run events).Current 2 (ascii "a.test") := by
  refine ⟨[.claim (ascii "a.test"), .cancel, .claim (ascii "a.test"), .drop 0,
    .claim (ascii "a.test")], ?_⟩
  rw [and_iff_right_of_imp]
  · exact ⟨⟨⟨ascii "a.test", 1, true⟩, by decide⟩, ⟨ascii "a.test", 1, true⟩, by decide⟩
  · rintro ⟨h1, h2⟩ ⟨-, -, -, -, h, -⟩
    exact absurd (h.one 1 2 _ h1 h2) (by decide)

end Pingclair.IssuanceSlots
