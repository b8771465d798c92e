import Pingclair.Layer4.PoolEpoch

/-!
# The snapshot of a pool

What the steps of the runtime do to the snapshot of a pool: each leaves it, or takes one of the two
steps of a revocation, or stores a new one, of addresses that the policy of an active pool permits.
A pool that is not active has none, as soon as its removal has revoked it.
-/

namespace Pingclair.Dns

open List Option

variable {A : Type}

/-- A snapshot that may be dialled, and times that have passed. -/
structure Pool.Safe (pool : Pool A) (time : Nat) : Prop where
  sound : pool.snapshot.Sound
  permitted : ∀ entry ∈ pool.snapshot.value, ∀ a ∈ entry.2.addresses, pool.permits a = true
  stored_lt : ∀ entry ∈ pool.snapshot.value, entry.1 < time
  revoked_lt : ∀ t ∈ pool.snapshot.revoked, t < time
  removed : ∀ t ∈ pool.removed, t ∈ pool.snapshot.revoked ∧ pool.snapshot.value = none

/-- What one step may do to the snapshot of a pool. -/
inductive Pool.Changes (pool : Pool A) (time : Nat) : Pool A → Prop
  | kept {pool' : Pool A} (hpermits : pool'.permits = pool.permits)
      (hsnapshot : pool'.snapshot = pool.snapshot) (hremoved : pool'.removed = pool.removed) :
      pool.Changes time pool'
  | cleared : pool.Changes time pool.clear
  | advanced (active : Bool) (hnone : pool.snapshot.value = none) :
      pool.Changes time (pool.advance time active)
  | stored (snapshot : Snapshot A) (hpermits : ∀ a ∈ snapshot.addresses, pool.permits a = true)
      (hremoved : pool.removed = none) : pool.Changes time (pool.store time snapshot)

theorem Pool.Changes.refl (pool : Pool A) (time : Nat) : pool.Changes time pool := .kept rfl rfl rfl

theorem Pool.Changes.permits_eq {pool pool' : Pool A} {time : Nat} (h : pool.Changes time pool') :
    pool'.permits = pool.permits := by
  cases h with
  | kept hpermits => exact hpermits
  | cleared | advanced | stored => rfl

theorem Pool.Safe.changes {pool pool' : Pool A} {time : Nat} (h : pool.Safe time)
    (hch : pool.Changes time pool') : pool'.Safe (time + 1) := by
  have hstd : ∀ entry ∈ pool.snapshot.value, entry.1 < time + 1 := fun entry he =>
    Nat.lt_succ_of_lt (h.stored_lt entry he)
  have hrvd : ∀ t ∈ pool.snapshot.revoked, t < time + 1 := fun t ht =>
    Nat.lt_succ_of_lt (h.revoked_lt t ht)
  cases hch with
  | kept hpermits hsnapshot hremoved =>
    constructor <;> rw [hsnapshot]
    · exact h.sound
    · exact hpermits ▸ h.permitted
    · exact hstd
    · exact hrvd
    · exact hremoved ▸ h.removed
  | cleared =>
    exact ⟨h.sound.clear, by simp [Pool.clear, Revocable.clear],
      by simp [Pool.clear, Revocable.clear], hrvd, fun t ht => ⟨(h.removed t ht).1, rfl⟩⟩
  | advanced a hnone =>
    refine ⟨h.sound.advance hnone time, h.permitted, hstd, ?_, ?_⟩
    · rintro t (_ | ⟨_, ht⟩)
      · exact Nat.lt_succ_self _
      · exact hrvd t ht
    · intro t ht
      refine ⟨?_, hnone⟩
      cases a with
      | true => exact mem_cons_of_mem _ (h.removed t ht).1
      | false =>
        cases Option.some.inj ht
        exact mem_cons_self
  | stored s hpermits hremoved =>
    refine ⟨h.sound.store h.revoked_lt s, ?_, ?_, hrvd, ?_⟩
    · intro entry he
      cases Option.some.inj he
      exact hpermits
    · intro entry he
      cases Option.some.inj he
      exact Nat.lt_succ_self _
    · intro t ht
      rw [show (pool.store time s).removed = none from hremoved] at ht
      simp at ht

theorem Pool.apply_store {pool : Pool A} {id now : Nat} {result : Except Failure (Answer A)}
    {o : Nat} {snap : Snapshot A} (h : .store o snap ∈ (pool.apply id now result).1) :
    ∀ a ∈ snap.addresses, pool.permits a = true := by
  rw [apply.eq_def] at h
  split at h
  · split at h
    · simp at h
    · next answer hany =>
      simp only [mem_singleton, Task.store.injEq] at h
      obtain ⟨-, rfl⟩ := h
      intro a ha
      by_contra hforbidden
      exact hany (any_eq_true.mpr ⟨a, ha, by simpa using hforbidden⟩)
  all_goals simp at h

theorem Pool.apply_advance (pool : Pool A) (id now : Nat) (result : Except Failure (Answer A))
    (o : Nat) : .advance o ∉ (pool.apply id now result).1 := by
  rw [apply.eq_def]
  split
  · split <;> simp
  all_goals simp

def Pool.cell (pool : Pool A) : (A → Bool) × Revocable (Snapshot A) × Option Nat :=
  (pool.permits, pool.snapshot, pool.removed)

theorem Pool.Changes.of_cell_eq {pool pool' : Pool A} (time : Nat) (h : pool'.cell = pool.cell) :
    pool.Changes time pool' := by
  rw [Pool.cell, Prod.mk.injEq, Prod.mk.injEq] at h
  exact .kept h.1 h.2.1 h.2.2

namespace Runtime

/-- The pools are as before, but for what does not bear on their snapshots, and for new ones. -/
def KeepsCells (r r' : Runtime A) : Prop :=
  ∃ new : List (Pool A), (∀ pool ∈ new, pool.snapshot = .empty ∧ pool.removed = none) ∧
    r'.pools.map Pool.cell = (r.pools ++ new).map Pool.cell

/-- What a step does to the snapshots, the active pools and the tasks. -/
inductive Moves (r r' : Runtime A) : Prop
  | quiet (hpools : r.KeepsCells r') (hactive : r'.active = r.active)
      (hcritical : r'.critical = r.critical)
  | published (draft : Draft A) (hdraft : r.draft = some draft) (hfree : r.critical = [])
      (hpools : r.KeepsCells r') (hactive : r'.active = draft.pools)
      (hcritical : r'.critical = (r.active.filter fun id => !draft.pools.contains id).map .revoke)
  | locked (hfree : r.critical = []) (hpools : r.KeepsCells r') (hactive : r'.active = r.active)
      (hadvance : ∀ id, .advance id ∉ r'.critical)
      (hstore : ∀ id snapshot, .store id snapshot ∈ r'.critical → id ∈ r.active ∧
        ∀ pool, r.pools[id]? = some pool → ∀ a ∈ snapshot.addresses, pool.permits a = true)
  | cleared (id : Nat) (rest : List (Task A)) (hcritical : r.critical = .revoke id :: rest)
      (hpools : r'.pools = r.pools.modify id Pool.clear) (hactive : r'.active = r.active)
      (hrest : r'.critical = .advance id :: rest)
  | advanced (id : Nat) (rest : List (Task A)) (hcritical : r.critical = .advance id :: rest)
      (hpools : r'.pools = r.pools.modify id (·.advance r.steps (r.active.contains id)))
      (hactive : r'.active = r.active) (hrest : r'.critical = rest)
  | stored (id : Nat) (snapshot : Snapshot A) (rest : List (Task A))
      (hcritical : r.critical = .store id snapshot :: rest)
      (hpools : r'.pools = r.pools.modify id (·.store r.steps snapshot))
      (hactive : r'.active = r.active) (hrest : r'.critical = rest)
  | finished (id : Nat) (fresh : Option Nat) (rest : List (Task A))
      (hcritical : r.critical = .finish id fresh :: rest) (hpools : r.KeepsCells r')
      (hactive : r'.active = r.active) (hrest : r'.critical = rest)

variable {r r' : Runtime A} {id : Nat} {pool : Pool A}

theorem KeepsCells.of_eq (h : r'.pools = r.pools) : r.KeepsCells r' :=
  ⟨[], by simp, by rw [h, append_nil]⟩

theorem KeepsCells.modify {f : Pool A → Pool A} (hpools : r'.pools = r.pools.modify id f)
    (h : ∀ pool, (f pool).cell = pool.cell) : r.KeepsCells r' :=
  ⟨[], by simp, by rw [hpools, map_modify_of_eq h, append_nil]⟩

theorem KeepsCells.exists_after (h : r.KeepsCells r') (hpo : r.pools[id]? = some pool) :
    ∃ pool', r'.pools[id]? = some pool' ∧ pool'.cell = pool.cell := by
  obtain ⟨new, -, hcells⟩ := h
  have hid := (List.getElem?_eq_some_iff.mp hpo).1
  have hcell := congrArg (·[id]?) hcells
  simp only [List.getElem?_map, List.getElem?_append_left hid, hpo, map_some,
    map_eq_some_iff] at hcell
  exact hcell

theorem KeepsCells.exists_before (h : r.KeepsCells r') (hpo : r'.pools[id]? = some pool) :
    (∃ old, r.pools[id]? = some old ∧ pool.cell = old.cell) ∨
      r.pools.length ≤ id ∧ pool.snapshot = .empty ∧ pool.removed = none := by
  obtain ⟨new, hnew, hcells⟩ := h
  have hcell := congrArg (·[id]?) hcells
  simp only [List.getElem?_map, hpo, map_some] at hcell
  obtain ⟨old, hold, heq⟩ := map_eq_some_iff.mp hcell.symm
  rw [List.getElem?_append] at hold
  split at hold
  · exact .inl ⟨old, hold, heq.symm⟩
  · next hid =>
    have hem := hnew old (mem_of_getElem? hold)
    rw [Pool.cell, Pool.cell, Prod.mk.injEq, Prod.mk.injEq] at heq
    exact .inr ⟨Nat.le_of_not_lt hid, heq.2.1 ▸ hem.1, heq.2.2 ▸ hem.2⟩

theorem moves_turn (now off : Nat) : r.Moves (r.turn now off) := by
  have hkp : ∀ {r' : Runtime A}, r'.pools = r.pools → r'.active = r.active →
      r'.critical = r.critical → r.Moves r' := fun hpools => .quiet (.of_eq hpools)
  rw [Runtime.turn]
  split
  · split_ifs
    · exact .quiet (.modify rfl fun _ => rfl) rfl rfl
    all_goals exact hkp rfl rfl rfl
  · exact hkp rfl rfl rfl

theorem moves_source [DecidableEq A] (lib : PolicyLib A) (config : Layer4Dns)
    (eps : Option (List (Endpoint A))) : r.Moves (r.source lib config eps) := by
  have hkp : r.Moves r := .quiet (.of_eq rfl) rfl rfl
  rw [Runtime.source.eq_def]
  split
  · split
    · exact hkp
    · split
      · exact hkp
      · split
        · exact .quiet (.of_eq rfl) rfl rfl
        · split
          · exact .quiet ⟨[_], by simp [Pool.new], rfl⟩ rfl rfl
          · exact hkp
  · exact hkp

theorem moves_complete (id : Nat) (result : Except Failure (Answer A)) :
    r.Moves (r.complete id result) := by
  have hkept : r.Moves r := .quiet (.of_eq rfl) rfl rfl
  rw [Runtime.complete.eq_def]
  split
  · next pool hph hcritical hpool =>
    split
    · dsimp only
      split
      · next hactive =>
        refine .locked hcritical (.modify rfl fun _ => rfl) rfl ?_ ?_
        · intro o hmem
          rcases mem_append.mp hmem with hmem | hmem
          · exact pool.apply_advance _ _ _ _ hmem
          · simp at hmem
        · intro o snap hmem
          have hmem : .store o snap ∈ (pool.apply id r.now result).1 :=
            (mem_append.mp hmem).resolve_right (by simp)
          have ho : o = id := (pool.apply_tasks id r.now result).1 _ hmem
          subst ho
          refine ⟨hactive.2, fun pool' hpool' => ?_⟩
          cases Option.some.inj (hpool.symm.trans hpool')
          exact Pool.apply_store hmem
      · exact .quiet (.modify rfl fun _ => rfl) rfl rfl
    · exact hkept
  · exact hkept

theorem moves_stop {jobs : List Nat} : r.Moves { r with jobs }.stop := by
  rw [Runtime.stop.eq_def]
  split
  · next hcritical =>
    exact .locked hcritical (.of_eq rfl) rfl (by simp) (by simp)
  · exact .quiet (.of_eq rfl) rfl rfl

theorem moves_task : r.Moves r.task := by
  rw [Runtime.task.eq_def]
  split
  · exact .quiet (.of_eq rfl) rfl rfl
  · next id rest hcritical => exact .cleared id rest hcritical rfl rfl rfl
  · next id rest hcritical => exact .advanced id rest hcritical rfl rfl rfl
  · next id s rest hcritical => exact .stored id s rest hcritical rfl rfl rfl
  · next id f rest hcritical =>
    exact .finished id f rest hcritical (.of_eq rfl) rfl rfl

theorem moves_act [DecidableEq A] (lib : PolicyLib A) (ev : Event A) : r.Moves (r.act lib ev) := by
  have hkp : ∀ {r' : Runtime A}, r'.pools = r.pools → r'.active = r.active →
      r'.critical = r.critical → r.Moves r' := fun hpools => .quiet (.of_eq hpools)
  cases ev with
  | tick dr =>
    dsimp only [act]
    split <;> exact hkp rfl rfl rfl
  | prepare own =>
    dsimp only [act, Runtime.prepare]
    split <;> exact hkp rfl rfl rfl
  | source config es => exact moves_source lib config es
  | abandon => exact hkp rfl rfl rfl
  | publish =>
    dsimp only [act]
    rw [Runtime.publish.eq_def]
    split
    · next d hcritical hdraft =>
      exact .published d hdraft hcritical (.of_eq rfl) rfl rfl
    · exact hkp rfl rfl rfl
  | look =>
    dsimp only [act]
    split
    · dsimp only [Runtime.look]
      split <;> exact hkp rfl rfl rfl
    · exact hkp rfl rfl rfl
  | turn =>
    dsimp only [act]
    split
    · exact moves_turn _ _
    · exact hkp rfl rfl rfl
  | run | scan =>
    dsimp only [act]
    split <;> exact hkp rfl rfl rfl
  | wake =>
    dsimp only [act]
    split
    · split
      · exact hkp rfl rfl rfl
      · split <;> exact hkp rfl rfl rfl
    · exact hkp rfl rfl rfl
  | complete id result => exact moves_complete id result
  | fail id =>
    dsimp only [act]
    rw [Runtime.fail.eq_def]
    split
    · split
      · exact moves_stop
      · exact hkp rfl rfl rfl
    · exact hkp rfl rfl rfl
  | stop => exact moves_stop
  | drain id =>
    dsimp only [act]
    rw [Runtime.drain.eq_def]
    split
    · exact .quiet (.modify rfl fun _ => rfl) rfl rfl
    · exact hkp rfl rfl rfl
  | task => exact moves_task

/-- Every snapshot is that of an active pool or is about to be revoked, revocations go through
their two steps one after the other, and what is stored is permitted. -/
structure Guarded (r : Runtime A) : Prop where
  advance_head : ∀ id rest, r.critical = .advance id :: rest →
    ∀ pool, r.pools[id]? = some pool → pool.snapshot.value = none
  advance_tail : ∀ id, .advance id ∉ r.critical.tail
  store : ∀ id snapshot, .store id snapshot ∈ r.critical → id ∈ r.active ∧
    ∀ pool, r.pools[id]? = some pool → ∀ a ∈ snapshot.addresses, pool.permits a = true
  safe : ∀ (id : Nat) (pool : Pool A), r.pools[id]? = some pool → pool.Safe r.steps
  filled : ∀ id pool, r.pools[id]? = some pool → pool.snapshot.value ≠ none →
    id ∈ r.active ∨ .revoke id ∈ r.critical
  removed : ∀ id pool, r.pools[id]? = some pool → pool.removed ≠ none → id ∉ r.active

theorem Guarded.removed_eq_none (h : r.Guarded) (hactive : id ∈ r.active)
    (hpo : r.pools[id]? = some pool) : pool.removed = none := by
  by_contra hremoved
  exact h.removed id pool hpo hremoved hactive

variable (h : r.Guarded) (hmv : r.Moves r')

include h hmv

/-- A step leaves the snapshots, or changes that of one pool. -/
theorem Guarded.keepsCells_or_modify :
    r.KeepsCells r' ∨ ∃ o f, r'.pools = r.pools.modify o f ∧
      ∀ pool, r.pools[o]? = some pool → pool.Changes r.steps (f pool) := by
  cases hmv with
  | quiet hpools => exact .inl hpools
  | published _ _ _ hpools => exact .inl hpools
  | locked _ hpools => exact .inl hpools
  | finished _ _ _ _ hpools => exact .inl hpools
  | cleared _ _ _ hpools => exact .inr ⟨_, _, hpools, fun _ _ => .cleared⟩
  | advanced o rest hcritical hpools =>
    exact .inr ⟨_, _, hpools, fun pool hpo =>
      .advanced _ (h.advance_head o rest hcritical pool hpo)⟩
  | stored o s rest hcritical hpools =>
    have hstore := h.store o s (hcritical ▸ mem_cons_self)
    exact .inr ⟨_, _, hpools, fun pool hpo => .stored s (hstore.2 pool hpo)
      (h.removed_eq_none hstore.1 hpo)⟩

theorem Guarded.exists_changes (hpo : r.pools[id]? = some pool) :
    ∃ pool', r'.pools[id]? = some pool' ∧ pool.Changes r.steps pool' := by
  rcases h.keepsCells_or_modify hmv with hpools | ⟨o, f, hpools, hf⟩
  · obtain ⟨pool', hpo', hcell⟩ := hpools.exists_after hpo
    exact ⟨pool', hpo', .of_cell_eq _ hcell⟩
  · refine ⟨if o = id then f pool else pool, ?_, ?_⟩
    · rw [hpools, List.getElem?_modify, hpo]
      split <;> rfl
    · split
      · next heq => exact hf pool (heq ▸ hpo)
      · exact .kept rfl rfl rfl

theorem Guarded.new_empty (hid : r.pools.length ≤ id)
    (hpo : r'.pools[id]? = some pool) : pool.snapshot = .empty ∧ pool.removed = none := by
  rcases h.keepsCells_or_modify hmv with hpools | ⟨o, f, hpools, -⟩
  · rcases hpools.exists_before hpo with ⟨old, hold, -⟩ | ⟨-, hnew⟩
    · exact absurd (List.getElem?_eq_some_iff.mp hold).1 (Nat.not_lt.mpr hid)
    · exact hnew
  · have hlt := (List.getElem?_eq_some_iff.mp hpo).1
    rw [hpools, length_modify] at hlt
    omega

/-- A pool after a step was there before, or is new. -/
theorem Guarded.changes_or_new {pool' : Pool A} (hpo' : r'.pools[id]? = some pool') :
    (∃ pool, r.pools[id]? = some pool ∧ pool.Changes r.steps pool') ∨
      r.pools.length ≤ id ∧ pool'.snapshot = .empty ∧ pool'.removed = none := by
  by_cases hid : id < r.pools.length
  · obtain ⟨after, haf, hch⟩ := h.exists_changes hmv (List.getElem?_eq_getElem hid)
    cases Option.some.inj (haf.symm.trans hpo')
    exact .inl ⟨_, List.getElem?_eq_getElem hid, hch⟩
  · have hid := Nat.le_of_not_lt hid
    exact .inr ⟨hid, h.new_empty hmv hid hpo'⟩

theorem Guarded.safe_moves (id : Nat) (pool' : Pool A)
    (hpo' : r'.pools[id]? = some pool') : pool'.Safe (r.steps + 1) := by
  rcases h.changes_or_new hmv hpo' with ⟨pool, hpo, hch⟩ | ⟨-, hem, hnone⟩
  · exact (h.safe id pool hpo).changes hch
  · constructor <;> rw [hem]
    · exact Revocable.sound_empty
    all_goals simp [Revocable.empty, hnone]

/-- New tasks for the same snapshots. -/
theorem Guarded.of_keepsCells (hros : r.Roster)
    (hpools : r.KeepsCells r')
    (hhd : ∀ id rest, r'.critical = .advance id :: rest → ∃ rest, r.critical = .advance id :: rest)
    (htl : ∀ id, .advance id ∉ r'.critical.tail)
    (hstore : ∀ id snap, .store id snap ∈ r'.critical → id ∈ r.active ∧ id ∈ r'.active ∧
      ∀ pool, r.pools[id]? = some pool → ∀ a ∈ snap.addresses, pool.permits a = true)
    (hfilled : ∀ id, id ∈ r.active ∨ .revoke id ∈ r.critical →
      id ∈ r'.active ∨ .revoke id ∈ r'.critical)
    (hremoved : ∀ (id : Nat) (pool : Pool A), r.pools[id]? = some pool → pool.removed ≠ none →
      id ∉ r'.active) : Guarded { r' with steps := r.steps + 1 } where
  advance_head id rest hcritical pool hpo := by
    obtain ⟨rest', hcritical'⟩ := hhd id rest hcritical
    rcases hpools.exists_before hpo with ⟨old, hold, hcell⟩ | ⟨-, hem, -⟩
    · rw [show pool.snapshot = old.snapshot from congrArg (·.2.1) hcell]
      exact h.advance_head id rest' hcritical' old hold
    · rw [hem]
      rfl
  advance_tail := htl
  store id snap hmem := by
    obtain ⟨hactive, hactive', hpermits⟩ := hstore id snap hmem
    refine ⟨hactive', fun pool hpo => ?_⟩
    rcases hpools.exists_before hpo with ⟨old, hold, hcell⟩ | ⟨hid, -⟩
    · rw [show pool.permits = old.permits from congrArg (·.1) hcell]
      exact hpermits old hold
    · exact absurd (hros.active_lt id hactive) (Nat.not_lt.mpr hid)
  safe id pool hpo := h.safe_moves hmv id pool hpo
  filled id pool hpo hv := by
    rcases hpools.exists_before hpo with ⟨old, hold, hcell⟩ | ⟨-, hem, -⟩
    · refine hfilled id (h.filled id old hold ?_)
      rwa [show pool.snapshot = old.snapshot from congrArg (·.2.1) hcell] at hv
    · exact absurd (by rw [hem]; rfl) hv
  removed id pool hpo hs := by
    rcases hpools.exists_before hpo with ⟨old, hold, hcell⟩ | ⟨-, -, hnone⟩
    · refine hremoved id old hold ?_
      rwa [show pool.removed = old.removed from congrArg (·.2.2) hcell] at hs
    · exact absurd hnone hs

/-- A task that changes one pool. -/
theorem Guarded.of_modify {o : Nat} {f : Pool A → Pool A}
    (hpools : r'.pools = r.pools.modify o f) (hactive : r'.active = r.active)
    (hpermits : ∀ pool, (f pool).permits = pool.permits)
    (hhd : ∀ id rest, r'.critical = .advance id :: rest →
      o = id ∧ ∀ pool, (f pool).snapshot.value = none)
    (htl : ∀ id, .advance id ∉ r'.critical.tail)
    (hstore : ∀ id snap, .store id snap ∈ r'.critical → .store id snap ∈ r.critical)
    (hv : ∀ pool, (f pool).snapshot.value ≠ none → pool.snapshot.value ≠ none ∨ o ∈ r.active)
    (hrevoke : ∀ id, .revoke id ∈ r.critical →
      .revoke id ∈ r'.critical ∨ o = id ∧ ∀ pool, (f pool).snapshot.value = none)
    (hremoved : ∀ pool, (f pool).removed ≠ none → pool.removed ≠ none ∨ o ∉ r.active) :
    Guarded { r' with steps := r.steps + 1 } := by
  have hlook : ∀ (id : Nat) (pool' : Pool A), r'.pools[id]? = some pool' →
      ∃ pool, r.pools[id]? = some pool ∧ pool' = if o = id then f pool else pool := by
    rw [hpools]
    exact fun id pool' => exists_of_getElem?_modify
  refine ⟨?_, htl, ?_, fun id pool hpo => h.safe_moves hmv id pool hpo, ?_, ?_⟩
  · intro id rest hcritical pool' hpo'
    obtain ⟨pool, -, rfl⟩ := hlook id pool' hpo'
    obtain ⟨rfl, hnone⟩ := hhd id rest hcritical
    rw [if_pos rfl]
    exact hnone pool
  · intro id snap hmem
    obtain ⟨hid, hpm⟩ := h.store id snap (hstore id snap hmem)
    refine ⟨hactive ▸ hid, fun pool' hpo' => ?_⟩
    obtain ⟨pool, hpo, rfl⟩ := hlook id pool' hpo'
    split
    · rw [hpermits]
      exact hpm pool hpo
    · exact hpm pool hpo
  · intro id pool' hpo' hs
    obtain ⟨pool, hpo, rfl⟩ := hlook id pool' hpo'
    show id ∈ r'.active ∨ _
    rw [hactive]
    split at hs
    · next heq =>
      subst heq
      rcases hv pool hs with hold | hid
      · refine (h.filled o pool hpo hold).imp_right fun hmem => ?_
        exact (hrevoke o hmem).resolve_right fun hnone => hs (hnone.2 pool)
      · exact .inl hid
    · next hne =>
      refine (h.filled id pool hpo hs).imp_right fun hmem => ?_
      exact (hrevoke id hmem).resolve_right fun hnone => hne hnone.1
  · intro id pool' hpo' hs
    obtain ⟨pool, hpo, rfl⟩ := hlook id pool' hpo'
    show id ∉ r'.active
    rw [hactive]
    split at hs
    · next heq =>
      subst heq
      exact (hremoved pool hs).elim (h.removed o pool hpo) fun hid => hid
    · exact h.removed id pool hpo hs

theorem Guarded.moves (hros : r.Roster) : Guarded { r' with steps := r.steps + 1 } := by
  -- no revocation is half done behind the first task
  have hna : ∀ {task : Task A} {rest : List (Task A)}, r.critical = task :: rest →
      ∀ id, .advance id ∉ rest := by
    intro task rest hcritical id
    have htail := h.advance_tail id
    rwa [hcritical] at htail
  have hcases := hmv
  cases hcases with
  | quiet hpools hactive hcritical =>
    refine h.of_keepsCells hmv hros hpools ?_ ?_ ?_ ?_ (hactive ▸ h.removed) <;>
      rw [hcritical]
    · exact fun _ rest heq => ⟨rest, heq⟩
    · exact h.advance_tail
    · exact fun id snap hmem => ⟨(h.store id snap hmem).1,
        hactive ▸ (h.store id snap hmem).1, (h.store id snap hmem).2⟩
    · exact hactive ▸ fun _ hor => hor
  | published draft hdraft hfree hpools hactive hcritical =>
    refine h.of_keepsCells hmv hros hpools ?_ ?_ ?_ ?_ ?_
    · rw [hcritical]
      intro id rest heq
      have hmem : (.advance id : Task A) ∈ _ := heq ▸ mem_cons_self
      simp at hmem
    · rw [hcritical]
      exact fun id hmem => absurd (mem_of_mem_tail hmem) (by simp)
    · rw [hcritical]
      simp
    · rw [hcritical, hactive, hfree]
      intro id hor
      have hid : id ∈ r.active := hor.resolve_right (by simp)
      by_cases hdraft : id ∈ draft.pools
      · exact .inl hdraft
      · exact .inr (mem_map_of_mem (mem_filter.mpr ⟨hid, by simpa using hdraft⟩))
    · intro id pool hpool hsome hid
      rw [hactive] at hid
      obtain ⟨t, ht⟩ := ne_none_iff_exists'.mp hsome
      have hrvd := ((h.safe id pool hpool).removed t ht).1
      rcases (hros.drafted draft hdraft).new id hid with hold | hun
      · exact h.removed id pool hpool hsome hold
      · have hzero := hun.2.2.2
        rw [revocations, List.getElem?_map, hpool] at hzero
        exact absurd (length_eq_zero_iff.mp hzero) (ne_nil_of_mem hrvd)
  | locked hfree hpools hactive hadvance hstore =>
    refine h.of_keepsCells hmv hros hpools ?_ ?_ ?_ ?_ (hactive ▸ h.removed)
    · exact fun id rest heq => absurd (heq ▸ mem_cons_self) (hadvance id)
    · exact fun id hmem => hadvance id (mem_of_mem_tail hmem)
    · exact fun id snap hmem => ⟨(hstore id snap hmem).1,
        hactive ▸ (hstore id snap hmem).1, (hstore id snap hmem).2⟩
    · rw [hfree, hactive]
      exact fun id hor => .inl (hor.resolve_right (by simp))
  | finished id fresh rest hcritical hpools hactive hrest =>
    refine h.of_keepsCells hmv hros hpools ?_ ?_ ?_ ?_ (hactive ▸ h.removed) <;> rw [hrest]
    · exact fun id rest heq => absurd (heq ▸ mem_cons_self) (hna hcritical id)
    · exact fun id hmem => hna hcritical id (mem_of_mem_tail hmem)
    · intro id snap hmem
      have hmem := hcritical ▸ mem_cons_of_mem _ hmem
      have hstore := h.store id snap hmem
      exact ⟨hstore.1, hactive ▸ hstore.1, hstore.2⟩
    · rw [hactive, hcritical]
      exact fun id hor => hor.imp_right fun hmem => by simpa using hmem
  | cleared id rest hcritical hpools hactive hrest =>
    refine h.of_modify hmv hpools hactive (fun _ => rfl) ?_ ?_ ?_ ?_ ?_ ?_ <;> try rw [hrest]
    · rintro o rest' heq
      cases heq
      exact ⟨rfl, fun _ => rfl⟩
    · exact hna hcritical
    · intro o snap hmem
      rw [hcritical]
      simpa using hmem
    · exact fun pool hsome => absurd rfl hsome
    · rw [hcritical]
      intro o hmem
      rcases mem_cons.mp hmem with heq | hmem
      · cases heq
        exact .inr ⟨rfl, fun _ => rfl⟩
      · exact .inl (mem_cons_of_mem _ hmem)
    · exact fun pool hsome => .inl hsome
  | advanced id rest hcritical hpools hactive hrest =>
    refine h.of_modify hmv hpools hactive (fun _ => rfl) ?_ ?_ ?_ ?_ ?_ ?_ <;> try rw [hrest]
    · exact fun id rest heq => absurd (heq ▸ mem_cons_self) (hna hcritical id)
    · exact fun id hmem => hna hcritical id (mem_of_mem_tail hmem)
    · exact fun o snap hmem => hcritical ▸ mem_cons_of_mem _ hmem
    · exact fun pool hsome => .inl hsome
    · rw [hcritical]
      exact fun o hmem => .inl (by simpa using hmem)
    · intro pool hsome
      by_cases hid : id ∈ r.active
      · refine .inl ?_
        simpa [Pool.advance, hid] using hsome
      · exact .inr hid
  | stored id snap rest hcritical hpools hactive hrest =>
    refine h.of_modify hmv hpools hactive (fun _ => rfl) ?_ ?_ ?_ ?_ ?_ ?_ <;> try rw [hrest]
    · exact fun id rest heq => absurd (heq ▸ mem_cons_self) (hna hcritical id)
    · exact fun id hmem => hna hcritical id (mem_of_mem_tail hmem)
    · exact fun o snap hmem => hcritical ▸ mem_cons_of_mem _ hmem
    · exact fun pool _ => .inr (h.store id snap (hcritical ▸ mem_cons_self)).1
    · rw [hcritical]
      exact fun o hmem => .inl (by simpa using hmem)
    · exact fun pool hsome => .inl hsome

end Runtime

end Pingclair.Dns
