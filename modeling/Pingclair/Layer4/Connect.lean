import Pingclair.Layer4.PoolCell

/-!
# Connections to a dynamic pool

A connection loads the epoch of its pool, then the snapshot, and dials up to four of its addresses.
Before each dial it checks the hard deadline of the snapshot and that the epoch is the one it
loaded.

Every load and every check is one step; the steps of all connections and of the runtime come in any
order. A dial is kept in the history, with the steps of its check and of its start.
-/

namespace Pingclair.Dns

inductive ErrorKind
  | addrNotAvailable
  | connectionRefused
  | connectionReset
  | connectionAborted
  | timedOut
  | networkUnreachable
  | hostUnreachable
  | other
  deriving DecidableEq

/-- After such an error the next address is tried. -/
def ErrorKind.isConnection : ErrorKind → Bool
  | .connectionRefused | .connectionReset | .connectionAborted | .timedOut | .networkUnreachable
  | .hostUnreachable => true
  | .addrNotAvailable | .other => false

inductive Outcome
  | stream
  | error (kind : ErrorKind)
  | elapsed

/-- What a connection loaded. For the history, with the step at which the snapshot was stored. -/
structure Held (A : Type) where
  epoch : Nat
  published : Nat
  snapshot : Snapshot A

structure Attempt (A : Type) extends Held A where
  deadline : Nat
  start : Nat
  offset : Nat
  last : ErrorKind

inductive Stage (A : Type)
  | entered
  | loaded (epoch : Nat)
  | picked (held : Held A)
  | timed (held : Held A) (deadline : Nat)
  | trying (attempt : Attempt A)
  /-- The hard deadline has not passed. -/
  | timely (attempt : Attempt A)
  /-- The epoch is the same: the check passed, at a step. -/
  | available (attempt : Attempt A) (checked : Nat)
  | ready (attempt : Attempt A) (checked attemptDeadline : Nat)
  | dialling (attempt : Attempt A) (attemptDeadline : Nat)
  | done (result : Except ErrorKind Unit)

structure Call (A : Type) where
  pool : Nat
  budget : Nat
  stage : Stage A

structure Dial (A : Type) where
  pool : Nat
  published : Nat
  snapshot : Snapshot A
  address : A
  checked : Nat
  started : Nat

structure System (A : Type) where
  runtime : Runtime A
  calls : List (Call A)
  dials : List (Dial A)

inductive Step (A : Type)
  | runtime (event : Event A)
  | enter (pool budget : Nat)
  | call (index : Nat) (outcome : Outcome)

variable {A : Type}

def Held.count (held : Held A) : Nat := held.snapshot.addresses.length

def Attempt.retry (attempt : Attempt A) (last : ErrorKind) : Stage A :=
  if attempt.offset + 1 < min attempt.count 4 then
    .trying { attempt with offset := attempt.offset + 1, last }
  else .done (.error last)

def Attempt.address? (attempt : Attempt A) : Option A :=
  attempt.snapshot.addresses[(attempt.start + attempt.offset) % attempt.count]?

def Stage.next (pool : Pool A) (now step budget : Nat) (outcome : Outcome) : Stage A → Stage A
  | .entered => .loaded pool.snapshot.epoch
  | .loaded epoch =>
    match pool.snapshot.value with
    | none => .done (.error .addrNotAvailable)
    | some (published, snapshot) =>
      if snapshot.addresses.isEmpty then .done (.error .addrNotAvailable)
      else .picked { epoch, published, snapshot }
  | .picked held => .timed held (now + budget)
  | .timed held deadline =>
    let start := if held.count = 1 then 0 else pool.cursor % held.count
    .trying { held with deadline, start, offset := 0, last := .timedOut }
  | .trying attempt =>
    if now < attempt.snapshot.hard then .timely attempt else .done (.error .addrNotAvailable)
  | .timely attempt =>
    if pool.snapshot.epoch = attempt.epoch then .available attempt step
    else .done (.error .addrNotAvailable)
  | .available attempt checked =>
    if attempt.deadline ≤ now then .done (.error .timedOut)
    else
      let attemptBudget := if attempt.count = 1 then budget else min budget (2 * nanosPerSecond)
      .ready attempt checked (min attempt.deadline (now + attemptBudget))
  | .ready attempt _ attemptDeadline => .dialling attempt attemptDeadline
  | .dialling attempt attemptDeadline =>
    match outcome with
    | .stream => .done (.ok ())
    | .error kind => if kind.isConnection then attempt.retry kind else .done (.error kind)
    | .elapsed =>
      if attemptDeadline ≤ now then attempt.retry .timedOut
      else .dialling attempt attemptDeadline
  | .done result => .done result

def Stage.moveCursor (stage : Stage A) (pool : Pool A) : Pool A :=
  match stage with
  | .timed held _ =>
    if held.count = 1 then pool else { pool with cursor := (pool.cursor + 1) % 2 ^ 64 }
  | _ => pool

def Call.dials (call : Call A) (step : Nat) : List (Dial A) :=
  match call.stage with
  | .ready attempt checked _ =>
    attempt.address?.toList.map fun address =>
      { pool := call.pool, published := attempt.published, snapshot := attempt.snapshot, address
        checked, started := step }
  | _ => []

namespace System

def advance (s : System A) (index : Nat) (outcome : Outcome) : System A :=
  match s.calls[index]? with
  | none => s
  | some call =>
    match s.runtime.pools[call.pool]? with
    | none => s
    | some pool =>
      { runtime := s.runtime.modifyPool call.pool call.stage.moveCursor
        calls := s.calls.set index { call with
          stage := call.stage.next pool s.runtime.now s.runtime.steps call.budget outcome }
        dials := s.dials ++ call.dials s.runtime.steps }

def step [DecidableEq A] (lib : PolicyLib A) (s : System A) : Step A → System A
  | .runtime event => { s with runtime := s.runtime.step lib event }
  | .enter pool budget =>
    { s with
      runtime := { s.runtime with steps := s.runtime.steps + 1 }
      calls := if pool < s.runtime.pools.length then s.calls ++ [⟨pool, budget, .entered⟩]
        else s.calls }
  | .call index outcome =>
    let after := s.advance index outcome
    { after with runtime := { after.runtime with steps := s.runtime.steps + 1 } }

def machine [DecidableEq A] (lib : PolicyLib A) (now : Fin instantEnd) :
    Machine (System A) (Step A) :=
  ⟨⟨.start now, [], []⟩, step lib⟩

end System

/-! ### What a connection knows -/

structure Held.Good (held : Held A) (pool : Pool A) (time : Nat) : Prop where
  holds : pool.snapshot.Holds held.epoch held.published
  permitted : ∀ a ∈ held.snapshot.addresses, pool.permits a = true
  published_lt : held.published < time
  removed_lt : ∀ t ∈ pool.removed, held.published < t

structure Pool.Checked (pool : Pool A) (published checked time : Nat) : Prop where
  checked_lt : checked < time
  revoked : ∀ t ∈ pool.snapshot.revoked, t < checked → t < published
  removed : ∀ t ∈ pool.removed, checked < t

variable {pool pool' : Pool A} {time : Nat}

theorem Held.Good.changes {held : Held A} (h : held.Good pool time)
    (hch : pool.Changes time pool') : held.Good pool' (time + 1) := by
  have hlt : held.published < time + 1 := Nat.lt_succ_of_lt h.published_lt
  have hpm := hch.permits_eq ▸ h.permitted
  cases hch with
  | kept hpermits hsnapshot hremoved =>
    exact ⟨hsnapshot ▸ h.holds, hpm, hlt, hremoved ▸ h.removed_lt⟩
  | cleared => exact ⟨⟨h.holds.epoch_le, h.holds.revoked_lt⟩, hpm, hlt, h.removed_lt⟩
  | advanced a hnone =>
    refine ⟨h.holds.advance time, hpm, hlt, ?_⟩
    cases a with
    | true => exact h.removed_lt
    | false =>
      intro t ht
      cases Option.some.inj ht
      exact h.published_lt
  | stored s hpermits hremoved =>
    exact ⟨⟨h.holds.epoch_le, h.holds.revoked_lt⟩, hpm, hlt, h.removed_lt⟩

theorem Pool.Checked.changes {published checked : Nat} (h : pool.Checked published checked time)
    (hch : pool.Changes time pool') : pool'.Checked published checked (time + 1) := by
  have hlt : checked < time + 1 := Nat.lt_succ_of_lt h.checked_lt
  cases hch with
  | kept hpermits hsnapshot hremoved =>
    exact ⟨hlt, hsnapshot ▸ h.revoked, hremoved ▸ h.removed⟩
  | cleared => exact ⟨hlt, h.revoked, h.removed⟩
  | advanced a hnone =>
    refine ⟨hlt, ?_, ?_⟩
    · rintro t (_ | ⟨_, ht⟩) hchk
      · exact absurd hchk (Nat.not_lt.mpr h.checked_lt.le)
      · exact h.revoked t ht hchk
    · cases a with
      | true => exact h.removed
      | false =>
        intro t ht
        cases Option.some.inj ht
        exact h.checked_lt
  | stored s hpermits hremoved => exact ⟨hlt, h.revoked, h.removed⟩

def Stage.held? : Stage A → Option (Held A)
  | .entered | .loaded _ | .done _ => none
  | .picked held | .timed held _ => some held
  | .trying attempt | .timely attempt | .available attempt _ | .ready attempt _ _
  | .dialling attempt _ => some attempt.toHeld

/-- The check that a connection passed and has not dialled on yet. -/
def Stage.checked? : Stage A → Option (Nat × Nat)
  | .available attempt checked | .ready attempt checked _ => some (attempt.published, checked)
  | _ => none

structure Stage.Good (stage : Stage A) (pool : Pool A) (time : Nat) : Prop where
  loaded : ∀ epoch, stage = .loaded epoch → epoch ≤ pool.snapshot.revoked.length
  held : ∀ held ∈ stage.held?, held.Good pool time
  checked : ∀ entry ∈ stage.checked?, pool.Checked entry.1 entry.2 time

theorem Pool.Changes.length_revoked_le (h : pool.Changes time pool') :
    pool.snapshot.revoked.length ≤ pool'.snapshot.revoked.length := by
  cases h with
  | kept _ hsnapshot => rw [hsnapshot]
  | cleared | stored => exact le_rfl
  | advanced => exact Nat.le_succ _

variable {stage : Stage A}

theorem Stage.Good.changes (h : stage.Good pool time) (hch : pool.Changes time pool') :
    stage.Good pool' (time + 1) where
  loaded epoch heq := (h.loaded epoch heq).trans hch.length_revoked_le
  held held hheld := (h.held held hheld).changes hch
  checked entry he := (h.checked entry he).changes hch

theorem Stage.Good.of_cell_eq (h : stage.Good pool time) (hcell : pool'.cell = pool.cell) :
    stage.Good pool' time := by
  rw [Pool.cell, Prod.mk.injEq, Prod.mk.injEq] at hcell
  obtain ⟨hpermits, hsnapshot, hremoved⟩ := hcell
  refine ⟨fun e heq => ?_, fun held hheld => ?_, fun entry he => ?_⟩
  · rw [hsnapshot]
    exact h.loaded e heq
  · obtain ⟨hhl, hpm, hlt, hremoved'⟩ := h.held held hheld
    exact ⟨hsnapshot ▸ hhl, hpermits ▸ hpm, hlt, hremoved ▸ hremoved'⟩
  · obtain ⟨hlt, hrvd, hremoved'⟩ := h.checked entry he
    exact ⟨hlt, hsnapshot ▸ hrvd, hremoved ▸ hremoved'⟩

theorem Stage.good_done (result : Except ErrorKind Unit) (pool : Pool A) (time : Nat) :
    (Stage.done result).Good pool time :=
  ⟨by simp, by simp [held?], by simp [checked?]⟩

theorem Stage.Good.retry {attempt : Attempt A} (h : attempt.toHeld.Good pool time)
    (last : ErrorKind) : (attempt.retry last).Good pool time := by
  rw [Attempt.retry]
  split
  · exact ⟨by simp, by simpa [held?] using h, by simp [checked?]⟩
  · exact good_done _ _ _

/-- The next step of a connection, with its pool as it is. -/
theorem Stage.Good.after (h : stage.Good pool time) (hsafe : pool.Safe time)
    (hbd : pool.snapshot.revoked.length < 2 ^ 64) (now budget : Nat) (outcome : Outcome) :
    (stage.next pool now time budget outcome).Good pool (time + 1) := by
  -- what was loaded stays so, as the pool does not change
  have hheld : ∀ held ∈ stage.held?, held.Good pool (time + 1) := fun held hmem =>
    (h.held held hmem).changes (.refl _ _)
  cases stage with
  | entered =>
    refine ⟨?_, by simp [Stage.next, held?], by simp [Stage.next, checked?]⟩
    intro epoch heq
    cases heq
    rw [hsafe.sound.epoch_eq]
    exact Nat.mod_le _ _
  | loaded epoch =>
    rw [Stage.next]
    split
    · exact good_done _ _ _
    · next published snap hv =>
      split
      · exact good_done _ _ _
      · refine ⟨by simp, ?_, by simp [checked?]⟩
        rintro held (_ | _)
        refine ⟨hsafe.sound.holds (h.loaded epoch rfl) hv, hsafe.permitted _ hv,
          Nat.lt_succ_of_lt (hsafe.stored_lt _ hv), ?_⟩
        intro t ht
        exact absurd (hsafe.removed t ht).2 (by simp [hv])
  | picked held => exact ⟨by simp [Stage.next], hheld, by simp [Stage.next, checked?]⟩
  | timed held deadline => exact ⟨by simp [Stage.next], hheld, by simp [Stage.next, checked?]⟩
  | trying attempt =>
    rw [Stage.next]
    split
    · exact ⟨by simp, hheld, by simp [checked?]⟩
    · exact good_done _ _ _
  | timely attempt =>
    have hgood := h.held attempt.toHeld rfl
    rw [Stage.next]
    split
    · next heq =>
      have hyoung := hgood.holds.lt_of_epoch_eq hsafe.sound hbd heq
      refine ⟨by simp, hheld, ?_⟩
      rintro entry (_ | _)
      refine ⟨Nat.lt_succ_self _, fun t ht _ => hyoung t ht, ?_⟩
      intro t ht
      exact absurd (hyoung t (hsafe.removed t ht).1) (Nat.not_lt.mpr (hgood.removed_lt t ht).le)
    · exact good_done _ _ _
  | available attempt checked =>
    rw [Stage.next]
    split
    · exact good_done _ _ _
    · exact ⟨by simp, hheld, fun entry he => (h.checked entry he).changes (.refl _ _)⟩
  | ready attempt checked attemptDeadline =>
    exact ⟨by simp [Stage.next], hheld, by simp [Stage.next, checked?]⟩
  | dialling attempt attemptDeadline =>
    have hgood := hheld attempt.toHeld rfl
    cases outcome with
    | stream => exact good_done _ _ _
    | error kind =>
      rw [Stage.next]
      split
      · exact .retry hgood _
      · exact good_done _ _ _
    | elapsed =>
      rw [Stage.next]
      split
      · exact .retry hgood _
      · exact ⟨by simp, hheld, by simp [checked?]⟩
  | done result => exact good_done _ _ _

/-- A dial was for a permitted address, and its check was in time. -/
structure Dial.Good (dial : Dial A) (pool : Pool A) (time : Nat) : Prop where
  address_mem : dial.address ∈ dial.snapshot.addresses
  permitted : pool.permits dial.address = true
  checked : pool.Checked dial.published dial.checked time

theorem Dial.Good.changes {dial : Dial A} (h : dial.Good pool time)
    (hch : pool.Changes time pool') : dial.Good pool' (time + 1) :=
  ⟨h.address_mem, hch.permits_eq ▸ h.permitted, h.checked.changes hch⟩

theorem Call.good_dials (call : Call A) (h : call.stage.Good pool time) {step : Nat} :
    ∀ dial ∈ call.dials step, dial.pool = call.pool ∧ dial.Good pool time := by
  intro dial hdial
  rw [Call.dials] at hdial
  split at hdial
  · next a c att hstg =>
    obtain ⟨address, had, rfl⟩ := List.mem_map.mp hdial
    have hmem : address ∈ a.snapshot.addresses := List.mem_of_getElem? (Option.mem_toList.mp had)
    rw [hstg] at h
    exact ⟨rfl, hmem, (h.held a.toHeld rfl).permitted address hmem, h.checked (a.published, c) rfl⟩
  · simp at hdial

theorem Stage.moveCursor_spec (stage : Stage A) (pool : Pool A) :
    (stage.moveCursor pool).cell = pool.cell ∧ (stage.moveCursor pool).starts = pool.starts := by
  rw [moveCursor.eq_def]
  split
  · split <;> exact ⟨rfl, rfl⟩
  · exact ⟨rfl, rfl⟩

namespace System

structure Inv (s : System A) : Prop where
  lasting : s.runtime.Lasting
  guarded : s.runtime.Guarded
  calls : ∀ call ∈ s.calls, ∃ pool : Pool A, s.runtime.pools[call.pool]? = some pool ∧
    call.stage.Good pool s.runtime.steps
  dials : ∀ dial ∈ s.dials, ∃ pool : Pool A, s.runtime.pools[dial.pool]? = some pool ∧
    dial.Good pool s.runtime.steps

variable {s : System A} {r' : Runtime A}

theorem Inv.moves (h : s.Inv) (hl : r'.Lasting) (hmv : s.runtime.Moves r') :
    Inv { s with runtime := { r' with steps := s.runtime.steps + 1 } } where
  lasting := ⟨{ hl.roster with }, { hl.spaced with }, hl.counted⟩
  guarded := h.guarded.moves hmv h.lasting.roster
  calls call hcall := by
    obtain ⟨pool, hpo, hgood⟩ := h.calls call hcall
    obtain ⟨pool', hpo', hch⟩ := h.guarded.exists_changes hmv hpo
    exact ⟨pool', hpo', hgood.changes hch⟩
  dials dial hdial := by
    obtain ⟨pool, hpo, hgood⟩ := h.dials dial hdial
    obtain ⟨pool', hpo', hch⟩ := h.guarded.exists_changes hmv hpo
    exact ⟨pool', hpo', hgood.changes hch⟩

theorem Inv.enter (h : s.Inv) {id : Nat} (hid : id < s.runtime.pools.length) (budget : Nat) :
    Inv { s with calls := s.calls ++ [⟨id, budget, .entered⟩] } :=
  { h with
    calls := by
      intro c hcall
      rcases List.mem_append.mp hcall with hcall | hcall
      · exact h.calls c hcall
      · cases List.mem_singleton.mp hcall
        exact ⟨_, List.getElem?_eq_getElem hid, by simp, by simp [Stage.held?],
          by simp [Stage.checked?]⟩ }

theorem Inv.advance (h : s.Inv) (i : Nat) (outcome : Outcome) :
    Inv { s.advance i outcome with
      runtime := { (s.advance i outcome).runtime with steps := s.runtime.steps + 1 } } := by
  have hidle := h.moves h.lasting (.quiet (.of_eq rfl) rfl rfl)
  rw [System.advance]
  split
  · exact hidle
  · next c hcall =>
    obtain ⟨pool, hpo, hgood⟩ := h.calls c (List.mem_of_getElem? hcall)
    split
    · exact hidle
    · next pool' hpo' =>
      cases Option.some.inj (hpo.symm.trans hpo')
      have hcell : ∀ pool, (c.stage.moveCursor pool).cell = pool.cell := fun pool =>
        (c.stage.moveCursor_spec pool).1
      have hl := h.lasting.modify c.pool (fun pool => (c.stage.moveCursor_spec pool).2)
        fun pool => congrArg (·.2.1.revoked) (hcell pool)
      have hmvd := h.moves hl (.quiet (.modify rfl hcell) rfl rfl)
      have haf : (s.runtime.modifyPool c.pool c.stage.moveCursor).pools[c.pool]? =
          some (c.stage.moveCursor pool) := by
        simp [Runtime.modifyPool, hpo]
      refine { hmvd with calls := ?_, dials := ?_ }
      · intro o ho
        rcases List.mem_or_eq_of_mem_set ho with ho | rfl
        · exact hmvd.calls o ho
        · have hsafe := h.guarded.safe c.pool pool hpo
          have hbd : pool.snapshot.revoked.length < 2 ^ 64 := by
            have hlt := h.lasting.revocations_lt c.pool
            rwa [Runtime.revocations, List.getElem?_map, hpo] at hlt
          exact ⟨_, haf, (hgood.after hsafe hbd _ _ outcome).of_cell_eq (hcell pool)⟩
      · intro dial hdial
        rcases List.mem_append.mp hdial with hdial | hdial
        · exact hmvd.dials dial hdial
        · obtain ⟨hid, hdialGood⟩ := c.good_dials hgood dial hdial
          refine ⟨_, hid ▸ haf, hdialGood.changes (.of_cell_eq _ (hcell pool))⟩

/-- What holds after any step of any party. -/
theorem Inv.step [DecidableEq A] (h : s.Inv) (lib : PolicyLib A) (step : Step A) :
    (s.step lib step).Inv := by
  cases step with
  | runtime e =>
    have hl := h.lasting.step lib e
    exact h.moves ⟨{ hl.roster with }, { hl.spaced with }, hl.counted⟩ (Runtime.moves_act lib e)
  | enter id b =>
    have hidle := h.moves h.lasting (.quiet (.of_eq rfl) rfl rfl)
    dsimp only [System.step]
    split
    · next hid => exact hidle.enter hid b
    · exact hidle
  | call i outcome => exact h.advance i outcome

theorem inv_start (now : Fin instantEnd) : Inv (⟨.start now, [], []⟩ : System A) := by
  refine ⟨Runtime.lasting_start now, ⟨?_, ?_, ?_, ?_, ?_, ?_⟩, by simp, by simp⟩ <;>
    simp [Runtime.start]

/-- What the dials of a run owe to the pools. -/
structure DialsSafe (s : System A) : Prop where
  /-- No dial is for a snapshot that was revoked after it was published and before the check of
  the dial. -/
  unrevoked : ∀ dial ∈ s.dials, ∀ pool, s.runtime.pools[dial.pool]? = some pool →
    ∀ t ∈ pool.snapshot.revoked, ¬(dial.published < t ∧ t < dial.checked)
  /-- Every address dialled is one of a snapshot, and permitted by the policy of the pool. -/
  permitted : ∀ dial ∈ s.dials, dial.address ∈ dial.snapshot.addresses ∧
    ∃ pool, s.runtime.pools[dial.pool]? = some pool ∧ pool.permits dial.address = true
  /-- A pool that is not active has no snapshot, unless its revocation is still to come. -/
  empty : ∀ id pool, s.runtime.pools[id]? = some pool → id ∉ s.runtime.active →
    .revoke id ∉ s.runtime.critical → pool.snapshot.value = none
  /-- A pool that a publication removed is not active again, has no snapshot, and is dialled only
  on checks from before. -/
  removed : ∀ id pool, s.runtime.pools[id]? = some pool → ∀ t ∈ pool.removed,
    id ∉ s.runtime.active ∧ pool.snapshot.value = none ∧
      ∀ dial ∈ s.dials, dial.pool = id → dial.checked < t

theorem Inv.dialsSafe (h : s.Inv) : s.DialsSafe where
  unrevoked dial hdial pool hpo t ht := by
    obtain ⟨pool', hpo', hgood⟩ := h.dials dial hdial
    cases Option.some.inj (hpo.symm.trans hpo')
    rintro ⟨haf, hb⟩
    exact Nat.lt_asymm haf (hgood.checked.revoked t ht hb)
  permitted dial hdial := by
    obtain ⟨pool, hpo, hgood⟩ := h.dials dial hdial
    exact ⟨hgood.address_mem, pool, hpo, hgood.permitted⟩
  empty id pool hpo hactive hrevoke := by
    by_contra hv
    exact (h.guarded.filled id pool hpo hv).elim hactive hrevoke
  removed id pool hpo t ht := by
    refine ⟨h.guarded.removed id pool hpo (Option.ne_none_iff_exists'.mpr ⟨t, ht⟩),
      ((h.guarded.safe id pool hpo).removed t ht).2, ?_⟩
    rintro dial hdial rfl
    obtain ⟨pool', hpo', hgood⟩ := h.dials dial hdial
    cases Option.some.inj (hpo.symm.trans hpo')
    exact hgood.checked.removed t ht

/-- However the steps of the runtime and of any number of connections follow one another. -/
theorem dials_safe [DecidableEq A] (lib : PolicyLib A) (now : Fin instantEnd)
    (steps : List (Step A)) : ((machine lib now).run steps).DialsSafe := by
  apply Inv.dialsSafe
  have hr : (machine lib now).Reachable (fun _ _ => True) ((machine lib now).run steps) :=
    Machine.reachable_run (Machine.allows_of_forall (fun _ _ => trivial) _ _)
  exact hr.invariant (I := Inv) (inv_start now) fun s step h _ => h.step lib step

section Late

open ByteText

def anyPolicy : PolicyLib Nat where
  canonical := id
  prepare _ _ := some fun _ => true

def backend : Layer4Dns where
  name := ascii "backend.example.test"
  port := 443
  resolvers := none
  versions := .ip
  validMs := none
  staleMs := 60000
  allowIp := none

/-- A pool is published and gets an address. A connection checks it, a publication removes the
pool, and the connection dials. -/
def lateDial : List (Step Nat) :=
  [.runtime (.prepare []), .runtime (.source backend (some [])), .runtime .publish,
    .runtime .run, .runtime .look, .runtime (.scan none), .runtime .turn, .runtime .turn,
    .runtime (.complete 0 (.ok ⟨[7], 30⟩)), .runtime .task, .runtime .task,
    .enter 0 1000, .call 0 .stream, .call 0 .stream, .call 0 .stream, .call 0 .stream,
    .call 0 .stream, .call 0 .stream,
    .runtime (.prepare []), .runtime .publish, .runtime .task, .runtime .task,
    .call 0 .stream, .call 0 .stream]

/-- A dial may start after its pool was removed, when its check came before. -/
theorem dialled_after_removal : ∃ dial pool t,
    dial ∈ ((machine anyPolicy ⟨0, by decide⟩).run lateDial).dials ∧
      ((machine anyPolicy ⟨0, by decide⟩).run lateDial).runtime.pools[dial.pool]? = some pool ∧
      pool.removed = some t ∧ t < dial.started := by
  refine ⟨⟨0, 9, ⟨[7], 30, 60000000030⟩, 7, 17, 23⟩, _, 21, ?_, rfl, rfl, by decide⟩
  exact List.mem_singleton.mpr rfl

end Late

end System

end Pingclair.Dns
