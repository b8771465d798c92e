import Mathlib.Data.List.Nodup
import Pingclair.Layer4.DnsRuntime
import Pingclair.Lib.Runs

/-!
# The epoch of a pool

The epoch of a pool has 64 bits and moves on with every revocation. It does not come back to a
value that it had: a pool is revoked at most once for every lookup that was started for it, once
by the end of the coordinator and once by the publication that removes it, and lookups of one pool
start at least a second apart.
-/

namespace Pingclair.Dns

open List Option

variable {A : Type}

def Task.pool : Task A → Nat
  | .revoke id | .advance id | .store id _ | .finish id _ => id

def Task.revokes (id : Nat) : Task A → Bool
  | .revoke other | .advance other => other == id
  | .store _ _ | .finish _ _ => false

def Phase.ends : Phase → Nat
  | .stopped => 1
  | _ => 0

theorem countP_map_revoke (ids : List Nat) (id : Nat) :
    (ids.map (Task.revoke (A := A))).countP (Task.revokes id) = ids.count id := by
  rw [countP_map]
  rfl

theorem Pool.apply_tasks (pool : Pool A) (id now : Nat) (result : Except Failure (Answer A)) :
    (∀ task ∈ (pool.apply id now result).1, task.pool = id) ∧
      (pool.apply id now result).1.countP (Task.revokes id) ≤ 1 := by
  rw [apply.eq_def]
  split
  · split <;> simp [Task.pool, Task.revokes]
  all_goals simp [Task.pool, Task.revokes]

theorem Entry.finish_spec (entry : Entry) (now : Nat) (jitter : UInt64) (fresh : Option Nat) :
    (entry.finish now jitter fresh).pool = entry.pool ∧
      (entry.finish now jitter fresh).lastStart = entry.lastStart ∧
      entry.lastStart.getD 0 + nanosPerSecond ≤ (entry.finish now jitter fresh).next := by
  rw [finish.eq_def]
  split <;> exact ⟨rfl, rfl, le_max_right _ _⟩

namespace Runtime

def starts (r : Runtime A) (id : Nat) : Nat := (r.pools.map Pool.starts)[id]?.getD 0

def revocations (r : Runtime A) (id : Nat) : Nat :=
  (r.pools.map fun pool => pool.snapshot.revoked.length)[id]?.getD 0

def Unused (r : Runtime A) (id : Nat) : Prop :=
  id ∉ r.jobs ∧ (∀ task ∈ r.critical, task.pool ≠ id) ∧ r.starts id = 0 ∧ r.revocations id = 0

/-- A draft beside the active pools. It has some of them, and others that are not used yet. -/
structure Drafted (active : List Nat) (known : Nat) (unused : Nat → Prop) (draft : Draft A) :
    Prop where
  previous_eq : draft.previous = active
  nodup : draft.pools.Nodup
  lt : ∀ id ∈ draft.pools, id < known
  new : ∀ id ∈ draft.pools, id ∈ active ∨ unused id

structure Roster (r : Runtime A) : Prop where
  active_lt : ∀ id ∈ r.active, id < r.pools.length
  active_nodup : r.active.Nodup
  jobs_lt : ∀ id ∈ r.jobs, id < r.pools.length
  tasks_lt : ∀ task ∈ r.critical, task.pool < r.pools.length
  drafted : ∀ draft ∈ r.draft, Drafted r.active r.pools.length r.Unused draft

/-- Lookups of one pool start a second apart. -/
structure Spaced (r : Runtime A) : Prop where
  now_lt : r.now < instantEnd
  scanning_le : ∀ now offset, r.phase = .scanning now offset → now ≤ r.now
  entries_nodup : (r.entries.map Entry.pool).Nodup
  starts_le : ∀ id, r.starts id * nanosPerSecond ≤ r.now + nanosPerSecond
  /-- The coordinator has an entry for an active pool that it started a lookup for. -/
  unseen : ∀ id ∈ r.active, (∀ entry ∈ r.entries, entry.pool ≠ id) → r.starts id = 0
  next_le : ∀ entry ∈ r.entries, entry.cancel = false →
    r.starts entry.pool * nanosPerSecond ≤ entry.next
  lastStart_le : ∀ entry ∈ r.entries,
    r.starts entry.pool * nanosPerSecond ≤ entry.lastStart.getD 0 + nanosPerSecond

/-- Every revocation, past or still to come, has its cause. -/
def Counted (r : Runtime A) : Prop :=
  ∀ id, r.revocations id + r.critical.countP (Task.revokes id) + r.jobs.count id ≤
    r.starts id + r.phase.ends + if id ∈ r.active then 0 else 1

structure Lasting (r : Runtime A) : Prop where
  roster : r.Roster
  spaced : r.Spaced
  counted : r.Counted

theorem Lasting.revocations_lt {r : Runtime A} (h : r.Lasting) (id : Nat) :
    r.revocations id < 2 ^ 64 := by
  have hc := h.counted id
  have hst := h.spaced.starts_le id
  have hnow := h.spaced.now_lt
  have hen : r.phase.ends ≤ 1 := by
    cases r.phase <;> simp [Phase.ends]
  have hactive : (if id ∈ r.active then 0 else 1) ≤ 1 := by
    split <;> omega
  simp only [instantEnd, nanosPerSecond] at hst hnow
  omega

section

variable {r r' : Runtime A} {id : Nat}

variable {f : Pool A → Pool A}

variable {pools : List (Pool A)} {pool : Pool A} {draft : Draft A} {now : Nat}

/-- A count of pools that only grows at one of them. -/
theorem getD_map_modify {g : Pool A → Nat} {n : Nat} (hid : id < pools.length)
    (h : ∀ pool, g (f pool) = g pool + n) (o : Nat) :
    ((pools.modify id f).map g)[o]?.getD 0 =
      (pools.map g)[o]?.getD 0 + if id = o then n else 0 := by
  by_cases ho : id = o
  · subst ho
    simp [hid, h]
  · simp [ho]

theorem starts_modify (hpools : r'.pools = r.pools.modify id f)
    (h : ∀ pool, (f pool).starts = pool.starts) : r'.starts = r.starts := by
  funext other
  rw [starts, starts, hpools, map_modify_of_eq h]

theorem revocations_modify (hpools : r'.pools = r.pools.modify id f)
    (h : ∀ pool, (f pool).snapshot.revoked = pool.snapshot.revoked) :
    r'.revocations = r.revocations := by
  funext other
  rw [revocations, revocations, hpools, map_modify_of_eq (g := fun pool : Pool A =>
    pool.snapshot.revoked.length) fun pool => congrArg length (h pool)]

theorem getD_concat_zero (counts : List Nat) (id : Nat) :
    (counts ++ [0])[id]?.getD 0 = counts[id]?.getD 0 := by
  rcases Nat.lt_trichotomy id counts.length with hlt | rfl | hgt
  · rw [getElem?_append_left hlt]
  · simp
  · rw [getElem?_eq_none (by simp; omega), getElem?_eq_none (by omega)]

theorem starts_append (h : pool.starts = 0) (hpools : r'.pools = r.pools ++ [pool]) :
    r'.starts = r.starts := by
  funext id
  rw [starts, starts, hpools, map_append, map_singleton, h, getD_concat_zero]

theorem revocations_append (h : pool.snapshot.revoked = [])
    (hpools : r'.pools = r.pools ++ [pool]) :
    r'.revocations = r.revocations := by
  funext id
  rw [revocations, revocations, hpools, map_append, map_singleton, h, length_nil, getD_concat_zero]

theorem starts_of_length_le (h : r.pools.length ≤ id) : r.starts id = 0 := by
  rw [starts, getElem?_eq_none (by rwa [length_map]), getD_none]

theorem revocations_of_length_le (h : r.pools.length ≤ id) : r.revocations id = 0 := by
  rw [revocations, getElem?_eq_none (by rwa [length_map]), getD_none]

theorem Spaced.setPools (h : r.Spaced) {critical : List (Task A)}
    (hst : ({ r with pools, critical } : Runtime A).starts = r.starts) :
    Spaced { r with pools, critical } :=
  { h with
    starts_le := hst ▸ h.starts_le
    unseen := hst ▸ h.unseen
    next_le := hst ▸ h.next_le
    lastStart_le := hst ▸ h.lastStart_le }

theorem Drafted.mono {active : List Nat} {kn kn' : Nat} {unused unused' : Nat → Prop}
    (h : Drafted active kn unused draft) (hkn : kn ≤ kn')
    (hun : ∀ id, id ∉ active → unused id → unused' id) : Drafted active kn' unused' draft where
  previous_eq := h.previous_eq
  nodup := h.nodup
  lt id hid := (h.lt id hid).trans_le hkn
  new id hid := by
    by_cases hactive : id ∈ active
    · exact .inl hactive
    · exact .inr (hun id hactive ((h.new id hid).resolve_left hactive))

theorem lasting_start (now : Fin instantEnd) : (start now : Runtime A).Lasting := by
  have hst : ∀ id, (start now : Runtime A).starts id = 0 := fun id =>
    starts_of_length_le (Nat.zero_le id)
  have hrev : ∀ id, (start now : Runtime A).revocations id = 0 := fun id =>
    revocations_of_length_le (Nat.zero_le id)
  refine ⟨⟨?_, nodup_nil, ?_, ?_, ?_⟩, ⟨now.isLt, ?_, nodup_nil, ?_, ?_, ?_, ?_⟩, ?_⟩
  case refine_6 =>
    intro id
    rw [hst]
    exact Nat.zero_le _
  case refine_10 =>
    intro id
    exact Nat.zero_le _
  all_goals simp [start]

theorem Drafted.concat {active : List Nat} {kn : Nat} {unused : Nat → Prop}
    (h : Drafted active kn unused draft) (hid : id < kn) (hnew : id ∉ draft.pools)
    (hor : id ∈ active ∨ unused id) :
    Drafted active kn unused { draft with pools := draft.pools ++ [id] } where
  previous_eq := h.previous_eq
  nodup := by
    refine nodup_append.mpr ⟨h.nodup, nodup_singleton id, ?_⟩
    grind
  lt := forall_mem_append.mpr ⟨h.lt, forall_mem_singleton.mpr hid⟩
  new := forall_mem_append.mpr ⟨h.new, forall_mem_singleton.mpr hor⟩

theorem addEntries_spec (new : Nat → Entry) (hnew : ∀ id, (new id).pool = id) (ids : List Nat)
    {entries : List Entry} (hnd : (entries.map Entry.pool).Nodup) :
    ((addEntries new entries ids).map Entry.pool).Nodup ∧
      (∀ entry ∈ entries, entry ∈ addEntries new entries ids) ∧
      (∀ id ∈ ids, ∃ entry ∈ addEntries new entries ids, entry.pool = id) ∧
      ∀ entry ∈ addEntries new entries ids, entry ∈ entries ∨
        ∃ id ∈ ids, entry = new id ∧ ∀ o ∈ entries, o.pool ≠ id := by
  induction ids using List.reverseRecOn with
  | nil => exact ⟨hnd, fun _ h => h, by simp, fun _ h => .inl h⟩
  | append_singleton ids id ih =>
    rw [addEntries, foldl_append, foldl_cons, foldl_nil, ← addEntries]
    obtain ⟨hnd', hkept, hall, hfrom⟩ := ih
    have hold : ∀ entry ∈ addEntries new entries ids, entry ∈ entries ∨
        ∃ o ∈ ids ++ [id], entry = new o ∧ ∀ other ∈ entries, other.pool ≠ o := by
      intro entry he
      refine (hfrom entry he).imp_right ?_
      rintro ⟨o, ho, heq⟩
      exact ⟨o, mem_append_left _ ho, heq⟩
    split
    · next hany =>
      refine ⟨hnd', hkept, forall_mem_append.mpr ⟨hall, ?_⟩, hold⟩
      simpa using hany
    · next hany =>
      have hfr : ∀ o ∈ addEntries new entries ids, o.pool ≠ id := by simpa using hany
      refine ⟨?_, fun entry he => mem_append_left _ (hkept entry he), ?_, ?_⟩
      · rw [map_append, map_singleton, hnew]
        refine nodup_append.mpr ⟨hnd', nodup_singleton id, ?_⟩
        grind
      · grind
      · refine forall_mem_append.mpr ⟨hold, ?_⟩
        grind

/-- When an entry changes, another one is still there, and of another pool. -/
theorem eq_or_mem_of_mem_modify {entries : List Entry} {idx : Nat} {entry o : Entry}
    {f : Entry → Entry} (hnd : (entries.map Entry.pool).Nodup) (he : entries[idx]? = some entry)
    (h : o ∈ entries.modify idx f) : o = f entry ∨ o ∈ entries ∧ entry.pool ≠ o.pool := by
  obtain ⟨i, hi⟩ := mem_iff_getElem?.mp h
  obtain ⟨old, hold, rfl⟩ := exists_of_getElem?_modify hi
  split
  · next heq =>
    subst heq
    cases Option.some.inj (he.symm.trans hold)
    exact .inl rfl
  · next hne =>
    refine .inr ⟨mem_of_getElem? hold, fun heq => hne ?_⟩
    have hlt : idx < (entries.map Entry.pool).length := by
      rw [length_map]
      exact (List.getElem?_eq_some_iff.mp he).1
    refine (getElem?_inj hlt hnd).mp ?_
    rw [getElem?_map, getElem?_map, he, hold, map_some, map_some, heq]

variable {tasks : List (Task A)}

theorem Roster.lock (h : r.Roster)
    (hts : ∀ task ∈ tasks, task.pool ∈ r.active) : Roster { r with critical := tasks } :=
  { h with
    tasks_lt := fun task htk => h.active_lt _ (hts task htk)
    drafted := fun d hdraft => (h.drafted d hdraft).mono le_rfl
      fun _ hid hun => ⟨hun.1, fun task htk heq => hid (heq ▸ hts task htk),
        hun.2.2⟩ }

variable (h : r.Lasting)

include h

theorem Lasting.tick (hle : r.now ≤ now) (hlt : now < instantEnd) : Lasting { r with now } :=
  { h with
    roster := { h.roster with }
    counted := h.counted
    spaced := { h.spaced with
      now_lt := hlt
      scanning_le := fun scanned o hph =>
        (h.spaced.scanning_le scanned o hph).trans hle
      starts_le := fun id => (h.spaced.starts_le id).trans (Nat.add_le_add_right hle _) } }

theorem Lasting.prepare (lib : PolicyLib A) (own : List A) : (r.prepare lib own).Lasting := by
  rw [Runtime.prepare]
  split
  · exact h
  · refine ⟨{ h.roster with drafted := ?_ }, { h.spaced with }, h.counted⟩
    intro d hdraft
    cases Option.some.inj hdraft
    exact ⟨rfl, nodup_nil, by simp, by simp⟩

theorem Lasting.abandon : Lasting { r with draft := none } :=
  ⟨{ h.roster with drafted := by simp }, { h.spaced with }, h.counted⟩

/-- The pools change, but none of their counts. -/
theorem Lasting.setPools (hlen : r.pools.length ≤ pools.length)
    (hst : ({ r with pools } : Runtime A).starts = r.starts)
    (hrev : ({ r with pools } : Runtime A).revocations = r.revocations) :
    Lasting { r with pools } := by
  have hun : Unused { r with pools } = r.Unused := by
    funext id
    rw [Unused, hst, hrev]
    rfl
  refine ⟨⟨?_, h.roster.active_nodup, ?_, ?_, ?_⟩, h.spaced.setPools hst, ?_⟩
  · exact fun id hid => (h.roster.active_lt id hid).trans_le hlen
  · exact fun id hid => (h.roster.jobs_lt id hid).trans_le hlen
  · exact fun task htk => (h.roster.tasks_lt task htk).trans_le hlen
  · exact fun d hdraft => hun ▸ (h.roster.drafted d hdraft).mono hlen fun _ _ hid => hid
  · intro id
    rw [hst, hrev]
    exact h.counted id

theorem Lasting.addPool (hdraft : draft ∈ r.draft) (hst : pool.starts = 0)
    (hrvd : pool.snapshot.revoked = []) : (r.addPool draft pool).Lasting := by
  have hst' : starts { r with pools := r.pools ++ [pool] } = r.starts := starts_append hst rfl
  have hrev' : revocations { r with pools := r.pools ++ [pool] } = r.revocations :=
    revocations_append hrvd rfl
  have hpools : Lasting { r with pools := r.pools ++ [pool] } := h.setPools (by simp) hst' hrev'
  refine ⟨{ hpools.roster with drafted := ?_ }, { hpools.spaced with }, hpools.counted⟩
  intro draft' hdraft'
  cases Option.some.inj hdraft'
  refine (hpools.roster.drafted draft hdraft).concat (by simp) ?_ (.inr ⟨?_, ?_, ?_, ?_⟩)
  · exact fun hmem => ((h.roster.drafted draft hdraft).lt _ hmem).ne rfl
  · exact fun hmem => (h.roster.jobs_lt _ hmem).ne rfl
  · exact fun task htk heq => (h.roster.tasks_lt task htk).ne heq
  · exact (congrFun hst' _).trans (starts_of_length_le le_rfl)
  · exact (congrFun hrev' _).trans (revocations_of_length_le le_rfl)

theorem Lasting.source [DecidableEq A] (lib : PolicyLib A) (config : Layer4Dns)
    (eps : Option (List (Endpoint A))) : (r.source lib config eps).Lasting := by
  rw [Runtime.source.eq_def]
  split
  · next d eps hdraft =>
    have hdfd := h.roster.drafted d hdraft
    split
    · exact h
    next hconfig =>
    split
    · exact h
    split
    · next id hfi =>
      have hactive : id ∈ r.active := hdfd.previous_eq ▸ mem_of_find?_eq_some hfi
      refine ⟨{ h.roster with drafted := ?_ }, { h.spaced with }, h.counted⟩
      intro d' hdraft'
      cases Option.some.inj hdraft'
      refine hdfd.concat (h.roster.active_lt id hactive) ?_ (.inl hactive)
      -- the draft has no pool of this configuration yet
      intro hmem
      refine hconfig (any_eq_true.mpr ⟨id, hmem, ?_⟩)
      have hreuse := find?_some hfi
      rw [reusable] at hreuse
      grind
    split
    · exact h.addPool hdraft rfl rfl
    · exact h
  · exact h

theorem Lasting.publish : r.publish.Lasting := by
  rw [Runtime.publish.eq_def]
  split
  · next d hcritical hdraft =>
    have hdfd := h.roster.drafted d hdraft
    refine ⟨⟨hdfd.lt, hdfd.nodup, h.roster.jobs_lt, ?_, by simp⟩,
      { h.spaced with unseen := ?_ }, ?_⟩
    · intro task htk
      obtain ⟨id, hid, rfl⟩ := mem_map.mp htk
      exact h.roster.active_lt id (mem_filter.mp hid).1
    · intro id hid hunseen
      rcases hdfd.new id hid with hactive | hun
      · exact h.spaced.unseen id hactive hunseen
      · exact hun.2.2.1
    · intro id
      have hc := h.counted id
      rw [hcritical] at hc
      show r.revocations id + ((r.active.filter _).map Task.revoke).countP (Task.revokes id) +
        r.jobs.count id ≤ r.starts id + r.phase.ends + if id ∈ d.pools then 0 else 1
      rw [countP_map_revoke]
      by_cases hid : id ∈ d.pools
      · have hz : (r.active.filter fun id => !d.pools.contains id).count id = 0 := by
          simp [count_eq_zero, hid]
        rw [hz, if_pos hid]
        rcases hdfd.new id hid with hactive | ⟨hjobs, -, -, hrev⟩
        · rwa [if_pos hactive] at hc
        · rw [count_eq_zero.mpr hjobs]
          omega
      · have hle : (r.active.filter fun id => !d.pools.contains id).count id ≤
            r.active.count id := Sublist.count_le id filter_sublist
        rw [if_neg hid]
        by_cases hactive : id ∈ r.active
        · have := nodup_iff_count_le_one.mp h.roster.active_nodup id
          rw [if_pos hactive] at hc
          omega
        · rw [count_eq_zero.mpr hactive] at hle
          rw [if_neg hactive] at hc
          omega
  · exact h

/-! ### The coordinator -/

theorem Lasting.setPhase {phase : Phase} (hen : phase.ends = r.phase.ends)
    (hsc : ∀ now off, phase = .scanning now off → now ≤ r.now) : Lasting { r with phase } where
  roster := { h.roster with }
  spaced := { h.spaced with scanning_le := hsc }
  counted id := (h.counted id).trans_eq (by rw [hen]; rfl)

theorem Lasting.look (hph : r.phase = .looking) : r.look.Lasting := by
  rw [Runtime.look]
  split
  · set rt := r.entries.filter fun entry => r.active.contains entry.pool with hretained
    obtain ⟨hnd, -, ha, hfr⟩ := addEntries_spec
      (fun id => .new id r.now (r.pools[id]?.any (·.cancel))) (fun _ => rfl) r.active
      (h.spaced.entries_nodup.sublist (filter_sublist.map _) : (rt.map _).Nodup)
    have hmem : ∀ entry ∈ rt, entry ∈ r.entries := fun entry he =>
      (mem_filter.mp he).1
    have hnew : ∀ id ∈ r.active, (∀ other ∈ rt, other.pool ≠ id) → r.starts id = 0 := by
      intro id hid hne
      refine h.spaced.unseen id hid fun entry he heq => ?_
      exact hne entry (mem_filter.mpr ⟨he, by simpa [heq] using hid⟩) heq
    refine ⟨{ h.roster with }, { h.spaced with
      scanning_le := by simp
      entries_nodup := hnd
      unseen := ?_
      next_le := ?_
      lastStart_le := ?_ }, fun id => (h.counted id).trans_eq (by rw [hph]; rfl)⟩
    · intro id hid hne
      obtain ⟨entry, he, heq⟩ := ha id hid
      exact absurd heq (hne entry he)
    · intro entry he hcan
      rcases hfr entry he with he | ⟨id, hid, rfl, hne⟩
      · exact h.spaced.next_le entry (hmem entry he) hcan
      · show r.starts id * _ ≤ _
        rw [hnew id hid hne]
        omega
    · intro entry he
      rcases hfr entry he with he | ⟨id, hid, rfl, hne⟩
      · exact h.spaced.lastStart_le entry (hmem entry he)
      · show r.starts id * _ ≤ _
        rw [hnew id hid hne]
        omega
  · exact h.setPhase (by rw [hph]; rfl) (by simp)

theorem Lasting.startJob {i : Nat} {entry : Entry} (he : r.entries[i]? = some entry)
    (hcan : entry.cancel = false) (hnext : entry.next ≤ now) (hnow : now ≤ r.now)
    (hactive : entry.pool ∈ r.active) : (r.startJob i entry.pool now).Lasting := by
  have hlen : (r.startJob i entry.pool now).pools.length = r.pools.length := length_modify ..
  have hst : ∀ id, (r.startJob i entry.pool now).starts id =
      r.starts id + if entry.pool = id then 1 else 0 :=
    getD_map_modify (h.roster.active_lt entry.pool hactive) fun _ => rfl
  have hrev : (r.startJob i entry.pool now).revocations = r.revocations :=
    revocations_modify rfl fun _ => rfl
  have hbd : (r.starts entry.pool + 1) * nanosPerSecond ≤ now + nanosPerSecond := by
    have := h.spaced.next_le entry (mem_of_getElem? he) hcan
    rw [Nat.add_mul]
    omega
  have hpools : (r.startJob i entry.pool now).entries.map Entry.pool = r.entries.map Entry.pool :=
    map_modify_of_eq (f := (·.start now)) (fun _ => rfl) r.entries i
  have hes : ∀ o ∈ (r.startJob i entry.pool now).entries,
      o = entry.start now ∨ o ∈ r.entries ∧ entry.pool ≠ o.pool :=
    fun o ho => eq_or_mem_of_mem_modify h.spaced.entries_nodup he ho
  refine ⟨⟨?_, h.roster.active_nodup, ?_, ?_, ?_⟩, ⟨h.spaced.now_lt, h.spaced.scanning_le, ?_, ?_,
    ?_, ?_, ?_⟩, ?_⟩
  · exact fun id hid => hlen ▸ h.roster.active_lt id hid
  · intro id hid
    rw [hlen]
    rcases mem_append.mp hid with hid | hid
    · exact h.roster.jobs_lt id hid
    · exact mem_singleton.mp hid ▸ h.roster.active_lt _ hactive
  · exact fun task htask => hlen ▸ h.roster.tasks_lt task htask
  · intro draft hdraft
    refine (h.roster.drafted draft hdraft).mono hlen.ge ?_
    rintro id hid ⟨hjobs, hts, hzero, hrvd⟩
    have hne : entry.pool ≠ id := fun heq => hid (heq ▸ hactive)
    refine ⟨?_, hts, ?_, ?_⟩
    · exact fun hmem => (mem_append.mp hmem).elim hjobs fun hmem =>
        hne (mem_singleton.mp hmem).symm
    · rw [hst, hzero, if_neg hne]
    · rw [hrev, hrvd]
  · rw [hpools]
    exact h.spaced.entries_nodup
  · intro id
    rw [hst]
    split
    · next heq =>
      subst heq
      exact hbd.trans (Nat.add_le_add_right hnow _)
    · exact h.spaced.starts_le id
  · intro id hid hne
    have hpool : ∀ o ∈ r.entries, o.pool ≠ id := by
      intro o ho heq
      have hmem := hpools ▸ mem_map_of_mem (f := Entry.pool) ho
      obtain ⟨started, hstarted, hsame⟩ := mem_map.mp hmem
      exact hne started hstarted (hsame.trans heq)
    rw [hst, if_neg (hpool entry (mem_of_getElem? he)), h.spaced.unseen id hid hpool]
  · intro o ho hcan'
    rcases hes o ho with rfl | ⟨ho, hne⟩
    · simp [Entry.start] at hcan'
    · rw [hst, if_neg hne]
      exact h.spaced.next_le o ho hcan'
  · intro o ho
    rcases hes o ho with rfl | ⟨ho, hne⟩
    · rw [hst, if_pos (show entry.pool = (entry.start now).pool from rfl)]
      exact hbd
    · rw [hst, if_neg hne]
      exact h.spaced.lastStart_le o ho
  · intro id
    have hcnt := h.counted id
    show _ + r.critical.countP _ + (r.jobs ++ [entry.pool]).count id ≤
      _ + r.phase.ends + if id ∈ r.active then 0 else 1
    rw [hrev, hst, count_append, count_singleton]
    have hsame : (if entry.pool == id then 1 else 0) = if entry.pool = id then 1 else 0 := by
      simp
    omega

/-- What tells the coordinator when to go on does not matter. -/
theorem Lasting.setWake (changed : Bool) (deadline : Option Nat) (cursor wake : Nat) :
    Lasting { r with changed, metricsDeadline := deadline, cursor, wake } :=
  ⟨{ h.roster with }, { h.spaced with }, h.counted⟩

theorem Lasting.turn {off : Nat} (hph : r.phase = .scanning now off) :
    (r.turn now off).Lasting := by
  have hnow := h.spaced.scanning_le now off hph
  have hen : r.phase.ends = 0 := by rw [hph]; rfl
  have hnx : Lasting { r with phase := .scanning now (off + 1) } :=
    h.setPhase hen.symm fun _ _ heq => by cases heq; exact hnow
  have hwt : Lasting { r with phase := .waiting } := h.setPhase hen.symm (by simp)
  rw [Runtime.turn]
  split
  · next entry he =>
    split
    · split
      · next hdu =>
        split
        · split
          · next hactive =>
            have hactive : entry.pool ∈ r.active := by simpa using hactive
            exact (h.startJob he hdu.1 hdu.2 hnow hactive).setPhase hen.symm
              fun _ _ heq => by cases heq; exact hnow
          · exact hnx
        · exact h
      · exact hnx
    · exact hwt.setWake _ _ _ _
  · exact hwt.setWake _ _ _ _

theorem Lasting.modify (id : Nat) (hst : ∀ pool, (f pool).starts = pool.starts)
    (hrvd : ∀ pool, (f pool).snapshot.revoked = pool.snapshot.revoked) :
    (r.modifyPool id f).Lasting :=
  h.setPools (length_modify ..).ge (starts_modify rfl hst) (revocations_modify rfl hrvd)

theorem Lasting.takeCancel (id : Nat) : (r.takeCancel id).Lasting :=
  h.modify id (fun _ => rfl) fun _ => rfl

theorem Lasting.eraseJob (id : Nat) : Lasting { r with jobs := r.jobs.erase id } where
  roster := { h.roster with
    jobs_lt := fun other ho => h.roster.jobs_lt other (mem_of_mem_erase ho)
    drafted := fun d hdraft => (h.roster.drafted d hdraft).mono le_rfl
      fun _ _ hun => ⟨mt mem_of_mem_erase hun.1, hun.2⟩ }
  spaced := { h.spaced with }
  counted other :=
    (Nat.add_le_add_left (Sublist.count_le other erase_sublist) _).trans (h.counted other)

/-- A lookup that ended and has its result applied. -/
theorem Lasting.applyJob (hph : r.phase = .waiting) (hcritical : r.critical = [])
    (hj : id ∈ r.jobs) (hactive : id ∈ r.active)
    (hpo : ∀ task ∈ tasks, task.pool = id) (hc : tasks.countP (Task.revokes id) ≤ 1) :
    Lasting { r with jobs := r.jobs.erase id, critical := tasks, phase := .completing } := by
  have herase := h.eraseJob id
  refine ⟨{ herase.roster.lock ?_ with }, { h.spaced with scanning_le := by simp }, ?_⟩
  · intro task htk
    rw [hpo task htk]
    exact hactive
  · intro o
    have hold := h.counted o
    rw [hph, hcritical] at hold
    show r.revocations o + tasks.countP (Task.revokes o) + (r.jobs.erase id).count o ≤
      r.starts o + 0 + if o ∈ r.active then 0 else 1
    by_cases ho : o = id
    · subst ho
      have hlt := count_pos_iff.mpr hj
      rw [count_erase_self]
      simp only [countP_nil, Phase.ends] at hold
      omega
    · have hz : tasks.countP (Task.revokes o) = 0 := by
        refine countP_eq_zero.mpr fun task htk hrvk => ho ?_
        rw [← hpo task htk]
        cases task <;> simp_all [Task.revokes, Task.pool]
      rw [hz, count_erase_of_ne ho]
      exact hold

theorem Lasting.complete (id : Nat) (result : Except Failure (Answer A)) :
    (r.complete id result).Lasting := by
  rw [Runtime.complete.eq_def]
  split
  · next pool hph hcritical hpool =>
    split
    · next hjob =>
      have htaken := h.takeCancel id
      dsimp only
      split
      · next hactive =>
        have hts := pool.apply_tasks id r.now result
        refine htaken.applyJob hph hcritical hjob hactive.2
          (forall_mem_append.mpr ⟨hts.1, forall_mem_singleton.mpr rfl⟩) ?_
        rw [countP_append]
        exact hts.2
      · have hends : r.phase.ends = 0 := by rw [hph]; rfl
        exact (htaken.eraseJob id).setPhase hends.symm (by simp)
    · exact h
  · exact h

theorem Lasting.stop : r.stop.Lasting := by
  rw [Runtime.stop.eq_def]
  split
  · next hph hcritical =>
    refine ⟨{ h.roster.lock ?_ with }, { h.spaced with scanning_le := by simp }, ?_⟩
    · intro task htk
      obtain ⟨id, hid, rfl⟩ := mem_map.mp htk
      exact hid
    · intro id
      have hold := h.counted id
      have hone := nodup_iff_count_le_one.mp h.roster.active_nodup id
      rw [hph] at hold
      show r.revocations id + (r.active.map Task.revoke).countP (Task.revokes id) +
        r.jobs.count id ≤ r.starts id + 1 + if id ∈ r.active then 0 else 1
      rw [countP_map_revoke]
      simp only [Phase.ends] at hold
      omega
  · exact h

theorem Lasting.fail (id : Nat) : (r.fail id).Lasting := by
  rw [Runtime.fail.eq_def]
  split
  · split
    · exact (h.eraseJob id).stop
    · exact h
  · exact h

theorem Lasting.drain (id : Nat) : (r.drain id).Lasting := by
  rw [Runtime.drain.eq_def]
  split
  · exact (h.takeCancel id).eraseJob id
  · exact h

/-- Tasks that are no more than those before. -/
theorem Lasting.setCritical (hts : ∀ task ∈ tasks, ∃ old ∈ r.critical, old.pool = task.pool)
    (hc : ∀ id, tasks.countP (Task.revokes id) ≤ r.critical.countP (Task.revokes id)) :
    Lasting { r with critical := tasks } where
  roster := { h.roster with
    tasks_lt := fun task htk => by
      obtain ⟨old, hold, heq⟩ := hts task htk
      exact heq ▸ h.roster.tasks_lt old hold
    drafted := fun d hdraft => (h.roster.drafted d hdraft).mono le_rfl
      fun id _ hun => ⟨hun.1, fun task htk => by
        obtain ⟨old, hold, heq⟩ := hts task htk
        exact heq ▸ hun.2.1 old hold, hun.2.2⟩ }
  spaced := { h.spaced with }
  counted id := by
    have hold := h.counted id
    have hle := hc id
    show r.revocations id + tasks.countP (Task.revokes id) + r.jobs.count id ≤
      r.starts id + r.phase.ends + if id ∈ r.active then 0 else 1
    omega

theorem Lasting.setRest {task : Task A} {rest : List (Task A)}
    (hcritical : r.critical = task :: rest) : Lasting { r with critical := rest } := by
  apply h.setCritical <;> rw [hcritical]
  · exact fun task htk => ⟨task, mem_cons_of_mem _ htk, rfl⟩
  · exact fun id => (sublist_cons_self _ _).countP_le

/-- The second step of a revocation. -/
theorem Lasting.advance {rest : List (Task A)}
    (hcritical : r.critical = .advance id :: rest) (hst : ∀ pool, (f pool).starts = pool.starts)
    (hrvd : ∀ pool, (f pool).snapshot.revoked = r.steps :: pool.snapshot.revoked) :
    Lasting { r.modifyPool id f with critical := rest } := by
  have hid : id < r.pools.length := h.roster.tasks_lt (.advance id) (by simp [hcritical])
  have hlen : (r.modifyPool id f).pools.length = r.pools.length := length_modify ..
  have hst' : (r.modifyPool id f).starts = r.starts := starts_modify rfl hst
  have hrev : ∀ other, (r.modifyPool id f).revocations other =
      r.revocations other + if id = other then 1 else 0 :=
    getD_map_modify hid fun pool => congrArg length (hrvd pool)
  have hrest := h.setRest hcritical
  refine ⟨⟨hlen ▸ h.roster.active_lt, h.roster.active_nodup, hlen ▸ h.roster.jobs_lt,
    hlen ▸ hrest.roster.tasks_lt, ?_⟩, h.spaced.setPools hst', ?_⟩
  · intro d hdraft
    refine (h.roster.drafted d hdraft).mono hlen.ge ?_
    rintro other - ⟨hjobs, hts, hz, hnone⟩
    have hne : id ≠ other := hts (.advance id) (by simp [hcritical])
    refine ⟨hjobs, fun task htk => hts task (by simp [hcritical, htk]), ?_, ?_⟩
    · exact (congrFun hst' other).trans hz
    · exact (hrev other).trans (by rw [hnone, if_neg hne])
  · intro other
    have hold := h.counted other
    rw [hcritical, countP_cons] at hold
    show (r.modifyPool id f).revocations other + rest.countP (Task.revokes other) +
      r.jobs.count other ≤ (r.modifyPool id f).starts other + r.phase.ends +
        if other ∈ r.active then 0 else 1
    rw [hrev, hst']
    simp only [Task.revokes, beq_iff_eq] at hold
    omega

theorem Lasting.finish (idx now : Nat) (jitter : UInt64) (fresh : Option Nat) :
    Lasting { r with entries := r.entries.modify idx (·.finish now jitter fresh) } := by
  have hspec : ∀ entry : Entry, _ := fun entry => entry.finish_spec now jitter fresh
  have hpools : (r.entries.modify idx (·.finish now jitter fresh)).map Entry.pool =
      r.entries.map Entry.pool :=
    map_modify_of_eq (fun entry => (hspec entry).1) r.entries idx
  have hes : ∀ o ∈ r.entries.modify idx (·.finish now jitter fresh), o ∈ r.entries ∨
      ∃ entry ∈ r.entries, o = entry.finish now jitter fresh := by
    intro o ho
    obtain ⟨i, hi⟩ := mem_iff_getElem?.mp ho
    obtain ⟨old, hold, rfl⟩ := exists_of_getElem?_modify hi
    split
    · exact .inr ⟨old, mem_of_getElem? hold, rfl⟩
    · exact .inl (mem_of_getElem? hold)
  refine ⟨{ h.roster with }, { h.spaced with
    entries_nodup := hpools ▸ h.spaced.entries_nodup
    unseen := ?_
    next_le := ?_
    lastStart_le := ?_ }, h.counted⟩
  · intro id hid hne
    refine h.spaced.unseen id hid fun entry he heq => ?_
    have hmem := hpools ▸ mem_map_of_mem (f := Entry.pool) he
    obtain ⟨o, ho, hsm⟩ := mem_map.mp hmem
    exact hne o ho (hsm.trans heq)
  · intro o ho hcan
    rcases hes o ho with ho | ⟨entry, he, rfl⟩
    · exact h.spaced.next_le o ho hcan
    · rw [(hspec entry).1]
      exact (h.spaced.lastStart_le entry he).trans (hspec entry).2.2
  · intro o ho
    rcases hes o ho with ho | ⟨entry, he, rfl⟩
    · exact h.spaced.lastStart_le o ho
    · rw [(hspec entry).1, (hspec entry).2.1]
      exact h.spaced.lastStart_le entry he

theorem Lasting.task : r.task.Lasting := by
  rw [Runtime.task.eq_def]
  split
  · exact h
  · next id rest hcritical =>
    refine (h.modify id (f := Pool.clear) (fun _ => rfl) fun _ => rfl).setCritical ?_ ?_
    · rintro task (_ | ⟨_, htk⟩)
      · exact ⟨.revoke id, hcritical ▸ mem_cons_self, rfl⟩
      · exact ⟨task, hcritical ▸ mem_cons_of_mem _ htk, rfl⟩
    · intro ot
      show (Task.advance id :: rest).countP (Task.revokes ot) ≤ r.critical.countP (Task.revokes ot)
      rw [hcritical, countP_cons, countP_cons]
      rfl
  · next id rest hcritical =>
    have hrest := h.advance hcritical (f := (·.advance r.steps (r.active.contains id)))
      (fun _ => rfl) fun _ => rfl
    exact hrest.setWake _ _ _ _
  · next id s rest hcritical =>
    exact (h.modify id (f := (·.store r.steps s)) (fun _ => rfl) fun _ => rfl).setRest hcritical
  · next id fr rest hcritical =>
    have hf := (h.setRest hcritical).finish (r.entries.findIdx (·.pool = id)) r.now
      (if fr.isSome then r.jitter else nextJitter r.jitter) fr
    have hen : r.phase.resume.ends = r.phase.ends := by cases r.phase <;> rfl
    have hsc : ∀ now o, r.phase.resume = .scanning now o → now ≤ r.now := by
      intro now o heq
      apply h.spaced.scanning_le now o
      cases hph : r.phase <;> simp_all [Phase.resume]
    have hresume := hf.setPhase hen hsc
    exact ⟨{ hresume.roster with }, { hresume.spaced with }, hresume.counted⟩

/-- Whatever step is taken, the counts hold. -/
theorem Lasting.step [DecidableEq A] (lib : PolicyLib A) (ev : Event A) :
    (r.step lib ev).Lasting := by
  have hact : (r.act lib ev).Lasting := by
    cases ev with
    | tick d =>
      dsimp only [act]
      split
      · next hlt => exact h.tick (Nat.le_add_right _ _) hlt
      · exact h
    | prepare own => exact h.prepare lib own
    | source config es => exact h.source lib config es
    | abandon => exact h.abandon
    | publish => exact h.publish
    | run =>
      dsimp only [act]
      split
      · next hph =>
        have hlooking : Lasting { r with phase := .looking } :=
          h.setPhase (by rw [hph]; rfl) (by simp)
        exact ⟨{ hlooking.roster with }, { hlooking.spaced with }, hlooking.counted⟩
      · exact h
    | look =>
      dsimp only [act]
      split
      · next hph => exact h.look hph
      · exact h
    | scan deadline =>
      dsimp only [act]
      split
      · next hph =>
        have hscan : Lasting { r with phase := .scanning r.now 0 } :=
          h.setPhase (by rw [hph]; rfl) fun _ _ heq => by cases heq; exact le_rfl
        exact hscan.setWake _ _ _ _
      · exact h
    | turn =>
      dsimp only [act]
      split
      · next now o hph => exact h.turn hph
      · exact h
    | wake =>
      dsimp only [act]
      split
      · next hph =>
        have hlooking : Lasting { r with phase := .looking } :=
          h.setPhase (by rw [hph]; rfl) (by simp)
        split
        · exact hlooking.setWake _ _ _ _
        · split
          · exact hlooking
          · exact h
      · exact h
    | complete id result => exact h.complete id result
    | fail id => exact h.fail id
    | stop => exact h.stop
    | drain id => exact h.drain id
    | task => exact h.task
  exact ⟨{ hact.roster with }, { hact.spaced with }, hact.counted⟩

end

end Runtime

end Pingclair.Dns
