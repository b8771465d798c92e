import Pingclair.Layer4.PoolEpoch

/-!
# The coordinator of the lookups

The handle in an entry tells that a lookup of the pool is under way; it goes when the result is
applied. A result for a pool that is not active any more is dropped, and the handle stays. So no
pool may become active again once it was removed: it would never be looked up.
-/

namespace Pingclair.Dns

open List Option

variable {A : Type}

/-- The coordinator has entries for the pools that it saw at the top of the loop. -/
def Phase.isPast : Phase → Bool
  | .looked | .scanning _ _ | .waiting | .completing => true
  | .idle | .looking | .stopped => false

/-- The coordinator runs, and does not apply a result. -/
def Phase.isFree : Phase → Bool
  | .looking | .looked | .scanning _ _ | .waiting => true
  | .idle | .completing | .stopped => false

theorem Pool.apply_revokes_or_store (pool : Pool A) (id now : Nat)
    (result : Except Failure (Answer A)) :
    ∀ task ∈ (pool.apply id now result).1,
      task = .revoke id ∨ ∃ snapshot, task = .store id snapshot := by
  rw [apply.eq_def]
  split
  · split <;> simp
  all_goals simp

theorem Entry.cancel_finish (entry : Entry) (now : Nat) (jitter : UInt64) (fresh : Option Nat) :
    (entry.finish now jitter fresh).cancel = false := by
  rw [finish.eq_def]
  split <;> rfl

namespace Runtime

/-- A pool has a handle to cancel a lookup with. -/
def handle (r : Runtime A) (id : Nat) : Bool := r.pools[id]?.any (·.cancel)

/-- The lock is held to apply a result, to an active pool that has no lookup. -/
def Applying (r : Runtime A) : Prop :=
  ∃ tasks id fresh, r.critical = tasks ++ [.finish id fresh] ∧ id ∈ r.active ∧ id ∉ r.jobs ∧
    ∀ task ∈ tasks, task.pool = id ∧ ∀ other fresh, task ≠ .finish other fresh

/-- The lock is held to revoke pools, if at all. -/
def Revoking (r : Runtime A) : Prop := ∀ task ∈ r.critical, task.revokes task.pool = true

def Covered (r : Runtime A) : Prop := ∀ id ∈ r.active, ∃ entry ∈ r.entries, entry.pool = id

/-- An entry that the scan was at. -/
def Served (r : Runtime A) (now : Nat) (entry : Entry) : Prop :=
  entry.cancel = true ∨ now < entry.next ∨ entry.pool ∉ r.active

/-- What the entries, the handles and the lookups have to do with one another. -/
structure Scheduled (r : Runtime A) : Prop where
  jobs_nodup : r.jobs.Nodup
  jobs_le : r.jobs.length ≤ 8
  entry_of_job : ∀ entry ∈ r.entries, entry.pool ∈ r.jobs → entry.cancel = true
  handle_of_job : ∀ id ∈ r.jobs, r.handle id = true
  job_of_handle : r.phase ≠ .stopped → ∀ id, r.handle id = true → id ∈ r.jobs
  job_of_entry : r.phase ≠ .stopped → ∀ entry ∈ r.entries, entry.cancel = true →
    entry.pool ∈ r.active → entry.pool ∈ r.jobs ∨ ∃ fresh, .finish entry.pool fresh ∈ r.critical
  applying : r.phase = .completing → r.Applying
  revoking : r.phase ≠ .completing → r.Revoking
  entry_lt : ∀ entry ∈ r.entries, entry.pool < r.pools.length
  drafted : ∀ draft ∈ r.draft, ∀ entry ∈ r.entries, entry.pool ∈ draft.pools →
    entry.pool ∈ r.active
  seen_le : r.seen ≤ r.publications
  idle : r.phase = .idle → r.entries = []
  covered : r.seen = r.publications → r.phase.isPast = true ∨ r.entries ≠ [] → r.Covered
  served : ∀ now offset, r.phase = .scanning now offset → ∀ k < offset, ∀ entry,
    r.entries[(r.cursor + k) % r.entries.length]? = some entry → r.Served now entry
  wake : r.phase = .waiting → ∃ now deadline, r.wake = r.wakeAt now deadline
  notified : r.phase.isPast = true → r.seen ≠ r.publications →
    r.changed = true ∨ r.critical ≠ [] ∧ r.phase ≠ .completing

section

variable {r r' : Runtime A} {id : Nat} {entry : Entry} {rest : List (Task A)}

theorem handle_modify {f : Pool A → Pool A} (hpools : r'.pools = r.pools.modify id f)
    (h : ∀ pool, (f pool).cancel = pool.cancel) : r'.handle = r.handle := by
  funext other
  rw [handle, handle, hpools, getElem?_modify]
  split
  · cases r.pools[other]? <;> simp [h]
  · simp

theorem handle_startJob {i now : Nat} (hid : id < r.pools.length) (o : Nat) :
    (r.startJob i id now).handle o = (decide (id = o) || r.handle o) := by
  rw [handle, handle]
  change (r.pools.modify id Pool.start)[o]?.any _ = _
  by_cases ho : id = o
  · subst ho
    simp [hid, Pool.start]
  · simp [ho]

theorem handle_takeCancel (o : Nat) :
    (r.takeCancel id).handle o = (!decide (id = o) && r.handle o) := by
  rw [handle, handle]
  change (r.pools.modify id fun pool => { pool with cancel := false })[o]?.any _ = _
  rw [getElem?_modify]
  by_cases ho : id = o
  · subst ho
    cases r.pools[id]? <;> simp
  · simp [ho]

/-- Entries that change keep their pools. -/
theorem exists_pool_eq {entries entries' : List Entry}
    (hpools : entries'.map Entry.pool = entries.map Entry.pool) (he : entry ∈ entries) :
    ∃ other ∈ entries', other.pool = entry.pool :=
  mem_map.mp (hpools ▸ mem_map_of_mem he)

theorem Covered.of_pools (h : r.Covered) (hactive : r'.active = r.active)
    (hpools : r'.entries.map Entry.pool = r.entries.map Entry.pool) : r'.Covered := by
  intro id hid
  obtain ⟨entry, he, rfl⟩ := h id (hactive ▸ hid)
  exact exists_pool_eq hpools he

/-! ### When the coordinator goes on -/

@[simp] theorem phase_look (r : Runtime A) : r.look.phase = .looked := by
  rw [Runtime.look]
  split <;> rfl

theorem look_keeps (r : Runtime A) : r.look.critical = r.critical ∧ r.look.active = r.active ∧
    r.look.now = r.now := by
  rw [Runtime.look]
  split <;> exact ⟨rfl, rfl, rfl⟩

theorem seen_look (r : Runtime A) : r.look.seen = r.look.publications := by
  rw [Runtime.look]
  split
  · rfl
  · next hsame =>
    rw [not_or, not_not] at hsame
    exact hsame.1

theorem exists_offset (cursor : Nat) {i count : Nat} (hi : i < count) :
    ∃ k < count, (cursor + k) % count = i := by
  have hlt := Nat.mod_lt cursor (Nat.zero_lt_of_lt hi)
  have hdiv := Nat.div_add_mod cursor count
  refine ⟨(i + count - cursor % count) % count, Nat.mod_lt _ (Nat.zero_lt_of_lt hi), ?_⟩
  have hsum : cursor + (i + count - cursor % count) = i + count * (cursor / count + 1) := by
    rw [Nat.mul_add]
    omega
  rw [Nat.add_mod_mod, hsum, Nat.add_mul_mod_self_left, Nat.mod_eq_of_lt hi]

/-- The coordinator is woken, looks, and scans the entries with a number of turns. -/
def round [DecidableEq A] (lib : PolicyLib A) (r : Runtime A) (deadline : Option Nat)
    (turns : Nat) : Runtime A :=
  ([Event.wake, .look, .scan deadline] ++ replicate turns Event.turn).foldl (step lib) r

/-- With the lock free a turn comes to the end of the scan, or to the next entry. -/
theorem turn_advances (now off : Nat) (hcritical : r.critical = []) :
    ((r.turn now off).phase = .waiting ∧ (r.turn now off).entries = r.entries ∧
        (r.turn now off).jobs = r.jobs ∨
      (r.turn now off).phase = .scanning now (off + 1) ∧ off < r.entries.length ∧
        (r.turn now off).entries.length = r.entries.length) ∧
    (r.turn now off).critical = [] ∧ (r.turn now off).active = r.active ∧
    (r.turn now off).seen = r.seen ∧ (r.turn now off).publications = r.publications := by
  rw [Runtime.turn]
  split
  · split
    · next hrm =>
      split
      · split
        · split
          · exact ⟨.inr ⟨rfl, hrm.1, length_modify ..⟩, hcritical, rfl, rfl, rfl⟩
          · exact ⟨.inr ⟨rfl, hrm.1, rfl⟩, hcritical, rfl, rfl, rfl⟩
        · next hlock => exact absurd (isEmpty_iff.mpr hcritical) hlock
      · exact ⟨.inr ⟨rfl, hrm.1, rfl⟩, hcritical, rfl, rfl, rfl⟩
    · exact ⟨.inl ⟨rfl, rfl, rfl⟩, hcritical, rfl, rfl, rfl⟩
  · exact ⟨.inl ⟨rfl, rfl, rfl⟩, hcritical, rfl, rfl, rfl⟩

/-- What a scan leads to: the coordinator waits, and a lookup is under way for every active pool
whose time had come, unless all eight are taken. -/
structure Rounded (r : Runtime A) (active : List Nat) (now : Nat) : Prop where
  waiting : r.phase = .waiting
  active_eq : r.active = active
  seen_eq : r.seen = r.publications
  due : r.jobs.length = 8 ∨ ∀ id ∈ active, id ∈ r.jobs ∨
    ∃ entry ∈ r.entries, entry.pool = id ∧ entry.cancel = false ∧ now < entry.next

theorem step_wake [DecidableEq A] (lib : PolicyLib A) (hph : r.phase = .waiting)
    (hwake : r.changed = true ∨ r.wake ≤ r.now) :
    (r.step lib .wake).phase = .looking ∧ (r.step lib .wake).critical = r.critical ∧
      (r.step lib .wake).active = r.active ∧ (r.step lib .wake).now = r.now := by
  simp only [step, act, hph]
  split
  · exact ⟨rfl, rfl, rfl, rfl⟩
  · next hch =>
    rw [if_pos (hwake.resolve_left hch)]
    exact ⟨rfl, rfl, rfl, rfl⟩

section Scheduled

variable (h : r.Scheduled)

include h

/-- The pools change, but not their handles. -/
theorem Scheduled.setPools {pools : List (Pool A)}
    (hhdl : ({ r with pools } : Runtime A).handle = r.handle)
    (hlen : r.pools.length ≤ pools.length) : Scheduled { r with pools } :=
  { h with
    handle_of_job := hhdl ▸ h.handle_of_job
    job_of_handle := hhdl ▸ h.job_of_handle
    entry_lt := fun entry he => (h.entry_lt entry he).trans_le hlen
    applying := h.applying
    revoking := h.revoking
    covered := h.covered
    served := h.served }

theorem Scheduled.modify {f : Pool A → Pool A}
    (hcan : ∀ pool, (f pool).cancel = pool.cancel) : (r.modifyPool id f).Scheduled :=
  h.setPools (handle_modify rfl hcan) (length_modify ..).ge

theorem Scheduled.prepare (lib : PolicyLib A) (own : List A) : (r.prepare lib own).Scheduled := by
  rw [Runtime.prepare]
  split
  · exact h
  · exact { h with drafted := by simp }

theorem Scheduled.publish : r.publish.Scheduled := by
  rw [Runtime.publish.eq_def]
  split
  · next d hcritical hdraft =>
    have hbk {entry : Entry} (he : entry ∈ r.entries) (hpo : entry.pool ∈ d.pools) :=
      h.drafted d hdraft entry he hpo
    have hph : r.phase ≠ .completing := by
      intro hph
      obtain ⟨ts, ot, f, heq, -⟩ := h.applying hph
      exact absurd (hcritical.symm.trans heq) (by simp)
    refine { h with
      job_of_entry := ?_
      applying := fun heq => absurd heq hph
      revoking := ?_
      drafted := by simp
      seen_le := h.seen_le.trans (Nat.le_succ _)
      covered := fun hse => absurd hse (Nat.lt_succ_of_le h.seen_le).ne
      served := ?_
      notified := fun _ _ => ?_ }
    · intro hph entry he hcan hpo
      rcases h.job_of_entry hph entry he hcan (hbk he hpo) with
        hj | ⟨f, hf⟩
      · exact .inl hj
      · simp [hcritical] at hf
    · intro _ task htk
      obtain ⟨ot, -, rfl⟩ := mem_map.mp htk
      exact beq_self_eq_true ot
    · intro now o hph k hk entry he
      refine (h.served now o hph k hk entry he).imp_right (Or.imp_right ?_)
      exact mt (hbk (mem_of_getElem? he))
    · cases hremoved : r.active.filter fun id => !d.pools.contains id with
      | nil => exact .inl (by simp)
      | cons id rest => exact .inr ⟨by simp, hph⟩
  · exact h

/-! ### The coordinator -/

/-- The coordinator goes from one place in its loop to another. -/
theorem Scheduled.setPhase {phase : Phase} {wake cursor : Nat} {changed : Bool}
    {deadline : Option Nat} (hold : r.phase.isFree = true) (hnew : phase.isFree = true)
    (hcov : r.seen = r.publications → phase.isPast = true ∨ r.entries ≠ [] → r.Covered)
    (hsvd : ∀ now off, phase = .scanning now off → ∀ k < off, ∀ entry,
      r.entries[(cursor + k) % r.entries.length]? = some entry → r.Served now entry)
    (hwake : phase = .waiting → ∃ now deadline, wake = r.wakeAt now deadline)
    (hnot : phase.isPast = true → r.seen ≠ r.publications → changed = true ∨ r.critical ≠ []) :
    Scheduled { r with phase, wake, cursor, changed, metricsDeadline := deadline } := by
  have hrun : r.phase ≠ .stopped := fun heq => by simp [heq, Phase.isFree] at hold
  have hfree : r.phase ≠ .completing := fun heq => by simp [heq, Phase.isFree] at hold
  have hnew' : phase ≠ .completing := fun heq => by simp [heq, Phase.isFree] at hnew
  refine { h with
    job_of_handle := fun _ => h.job_of_handle hrun
    job_of_entry := fun _ => h.job_of_entry hrun
    applying := fun heq => absurd heq hnew'
    revoking := fun _ => h.revoking hfree
    idle := fun heq => ?_
    covered := hcov
    served := hsvd
    wake := hwake
    notified := fun hpast hseen => (hnot hpast hseen).imp_right (⟨·, hnew'⟩) }
  dsimp only at heq
  simp [heq, Phase.isFree] at hnew

/-- What is known of a publication that was not seen, while the coordinator runs on. -/
theorem Scheduled.unseen (hpast : r.phase.isPast = true)
    (hseen : r.seen ≠ r.publications) : r.changed = true ∨ r.critical ≠ [] :=
  (h.notified hpast hseen).imp_right And.left

theorem Scheduled.run (hph : r.phase = .idle) :
    Scheduled { r with seen := r.publications, phase := .looking } := by
  have hes := h.idle hph
  have hrun : r.phase ≠ .stopped := by simp [hph]
  refine { h with
    job_of_handle := fun _ => h.job_of_handle hrun
    job_of_entry := fun _ => h.job_of_entry hrun
    applying := by simp
    revoking := fun _ => h.revoking (by simp [hph])
    seen_le := le_rfl
    idle := by simp
    covered := ?_
    served := by simp
    wake := by simp
    notified := by simp [Phase.isPast] }
  rintro - (hpa | hne)
  · simp [Phase.isPast] at hpa
  · exact absurd hes hne

/-- The coordinator is stopped, with some of the lookups under way. -/
theorem Scheduled.stopped {pools : List (Pool A)} {jobs : List Nat} {critical : List (Task A)}
    (hjobs : jobs.Sublist r.jobs) (hhdl : ∀ id ∈ jobs, handle { r with pools } id = true)
    (hlen : r.pools.length ≤ pools.length)
    (hrev : ∀ task ∈ critical, task.revokes task.pool = true) :
    Scheduled { r with pools, jobs, critical, phase := .stopped } where
  jobs_nodup := h.jobs_nodup.sublist hjobs
  jobs_le := hjobs.length_le.trans h.jobs_le
  entry_of_job entry he hj := h.entry_of_job entry he (hjobs.subset hj)
  handle_of_job := hhdl
  job_of_handle hrun := absurd rfl hrun
  job_of_entry hrun := absurd rfl hrun
  applying heq := by cases heq
  revoking _ := hrev
  entry_lt entry he := (h.entry_lt entry he).trans_le hlen
  drafted := h.drafted
  seen_le := h.seen_le
  idle heq := by cases heq
  covered hse hor := h.covered hse (.inr (hor.resolve_left (by simp [Phase.isPast])))
  served now off heq := by cases heq
  wake heq := by cases heq
  notified hpast := by cases hpast

/-- A lookup came back, and a stopped coordinator is not looked at further. -/
theorem Scheduled.takeJob (id : Nat) (hcritical : r.critical = []) :
    Scheduled { r.takeCancel id with jobs := r.jobs.erase id, phase := .stopped } := by
  refine h.stopped erase_sublist (fun o ho => ?_) (length_modify ..).ge ?_
  · obtain ⟨hne, ho⟩ := h.jobs_nodup.mem_erase_iff.mp ho
    refine (handle_takeCancel o).trans ?_
    rw [h.handle_of_job o ho]
    simpa using hne.symm
  · simp [takeCancel, modifyPool, hcritical]

theorem Scheduled.complete (id : Nat) (result : Except Failure (Answer A)) :
    (r.complete id result).Scheduled := by
  rw [Runtime.complete.eq_def]
  split
  · next pool hph hcritical hpo =>
    have hrun : r.phase ≠ .stopped := by simp [hph]
    split
    · have htaken := h.takeJob id hcritical
      have hjobs (o : Nat) (ho : (r.takeCancel id).handle o = true) : o ∈ r.jobs.erase id := by
        rw [handle_takeCancel, Bool.and_eq_true] at ho
        refine h.jobs_nodup.mem_erase_iff.mpr ⟨?_, h.job_of_handle hrun o ho.2⟩
        rintro rfl
        simp at ho
      -- an active pool whose entry has a handle is that of the lookup, or has one under way
      have hactive (entry : Entry) (he : entry ∈ r.entries) (hcan : entry.cancel = true)
          (hactive : entry.pool ∈ r.active) : entry.pool = id ∨ entry.pool ∈ r.jobs.erase id := by
        rcases h.job_of_entry hrun entry he hcan hactive with hmem | ⟨f, hf⟩
        · by_cases heq : entry.pool = id
          · exact .inl heq
          · exact .inr ((mem_erase_of_ne heq).mpr hmem)
        · simp [hcritical] at hf
      dsimp only
      split
      · next hfd =>
        refine { htaken with
          job_of_handle := fun _ => hjobs
          job_of_entry := ?_
          applying := fun _ => ?_
          revoking := by simp
          idle := by simp
          covered := fun hse _ => h.covered hse (.inl (by rw [hph]; rfl))
          served := by simp
          wake := by simp
          notified := fun _ hseen => .inl ?_ }
        · intro _ entry he hcan hmem
          rcases hactive entry he hcan hmem with rfl | hmem
          · exact .inr ⟨_, mem_append_right _ (mem_singleton_self _)⟩
          · exact .inl hmem
        · refine ⟨_, id, _, rfl, hfd.2, h.jobs_nodup.not_mem_erase, fun task htk => ?_⟩
          rcases pool.apply_revokes_or_store id r.now result task htk with rfl | ⟨_, rfl⟩
          · exact ⟨rfl, by simp⟩
          · exact ⟨rfl, by simp⟩
        · exact (h.unseen (by rw [hph]; rfl) hseen).resolve_right fun hne => hne hcritical
      · next hfd =>
        refine { htaken with
          job_of_handle := fun _ => hjobs
          job_of_entry := ?_
          applying := by simp
          revoking := fun _ => htaken.revoking (by simp)
          idle := by simp
          covered := htaken.covered
          served := by simp
          wake := by simp
          notified := by simp [Phase.isPast] }
        intro _ entry he hcan hmem
        refine .inl ((hactive entry he hcan hmem).resolve_left fun heq => hfd ?_)
        exact ⟨any_eq_true.mpr ⟨entry, he, decide_eq_true heq⟩, heq ▸ hmem⟩
    · exact h
  · exact h

theorem Scheduled.ended {jobs : List Nat} (hjobs : jobs.Sublist r.jobs) :
    Scheduled { r with jobs, critical := r.active.map .revoke, phase := .stopped } := by
  refine h.stopped hjobs (fun id hid => h.handle_of_job id (hjobs.subset hid)) le_rfl ?_
  intro task htask
  obtain ⟨o, -, rfl⟩ := mem_map.mp htask
  exact beq_self_eq_true o

theorem Scheduled.stop : r.stop.Scheduled := by
  rw [Runtime.stop.eq_def]
  split
  · next hph _ => exact h.ended (Sublist.refl _)
  · exact h

theorem Scheduled.fail (id : Nat) : (r.fail id).Scheduled := by
  rw [Runtime.fail.eq_def]
  split
  · next hph hcritical =>
    split
    · rw [Runtime.stop.eq_def]
      rw [hph, hcritical]
      exact h.ended erase_sublist
    · exact h
  · exact h

theorem Scheduled.drain (id : Nat) : (r.drain id).Scheduled := by
  rw [Runtime.drain.eq_def]
  split
  · next hph hcritical => exact { hph ▸ h.takeJob id hcritical with }
  · exact h

/-! ### The lock -/

/-- A task of a revocation or of a new snapshot makes room for the rest of it, and behind the last
one the coordinator is notified, unless it waits itself. -/
theorem Scheduled.setTasks {task : Task A} (new : List (Task A)) {changed : Bool}
    (hcritical : r.critical = task :: rest) (htask : ∀ o fresh, task ≠ .finish o fresh)
    (hnew : ∀ o ∈ new, o.pool = task.pool ∧ o.revokes o.pool = true)
    (hchanged : r.changed = true → changed = true)
    (hlast : r.phase ≠ .completing → new ++ rest = [] → changed = true) :
    Scheduled { r with critical := new ++ rest, changed } := by
  refine { h with
    job_of_entry := ?_
    applying := ?_
    revoking := ?_
    covered := h.covered
    served := h.served
    notified := ?_ }
  · intro hph entry he hcan hactive
    refine (h.job_of_entry hph entry he hcan hactive).imp_right ?_
    rintro ⟨fresh, hfin⟩
    rw [hcritical] at hfin
    refine ⟨fresh, mem_append_right _ ((mem_cons.mp hfin).resolve_left fun heq => ?_)⟩
    exact htask _ _ heq.symm
  · intro hph
    obtain ⟨ts, id, fresh, heq, hactive, hj, hts⟩ := h.applying hph
    cases ts with
    | nil => exact absurd (cons.inj (hcritical.symm.trans heq)).1 (htask id fresh)
    | cons f ts =>
      obtain ⟨rfl, rfl⟩ := cons.inj (hcritical.symm.trans heq)
      refine ⟨new ++ ts, id, fresh, (append_assoc ..).symm, hactive, hj, fun o ho => ?_⟩
      rcases mem_append.mp ho with ho | ho
      · refine ⟨(hnew o ho).1.trans (hts task mem_cons_self).1, ?_⟩
        rintro other fresh rfl
        exact absurd (hnew _ ho).2 (by simp [Task.revokes])
      · exact hts o (mem_cons_of_mem _ ho)
  · intro hph o ho
    rcases mem_append.mp ho with ho | ho
    · exact (hnew o ho).2
    · exact h.revoking hph o (hcritical ▸ mem_cons_of_mem _ ho)
  · intro hpast hseen
    rcases h.notified hpast hseen with hold | ⟨-, hph⟩
    · exact .inl (hchanged hold)
    · by_cases hempty : new ++ rest = []
      · exact .inl (hlast hph hempty)
      · exact .inr ⟨hempty, hph⟩

theorem Scheduled.mem_jobs (hrun : r.phase ≠ .stopped)
    (hph : r.phase ≠ .completing) (he : entry ∈ r.entries) (hcan : entry.cancel = true)
    (hactive : entry.pool ∈ r.active) : entry.pool ∈ r.jobs := by
  refine (h.job_of_entry hrun entry he hcan hactive).resolve_right ?_
  rintro ⟨f, hf⟩
  exact absurd (h.revoking hph _ hf) (by simp [Task.revokes])

variable {now off : Nat}

/-- At the end of a scan a lookup is under way for every pool whose time had come, unless all eight
are taken. -/
theorem Scheduled.scanned {offset : Nat} (hph : r.phase = .scanning now offset)
    (hend : (r.turn now offset).phase = .waiting) :
    r.jobs.length = 8 ∨ ∀ entry ∈ r.entries, r.Served now entry := by
  rw [or_iff_not_imp_left]
  intro hrm entry he
  have hlen : 0 < r.entries.length := length_pos_of_mem he
  have hdn : r.entries.length ≤ offset := by
    by_contra hlt
    rw [Runtime.turn] at hend
    have hidx := getElem?_eq_getElem (Nat.mod_lt (r.cursor + offset) hlen)
    rw [hidx] at hend
    dsimp only at hend
    rw [if_pos ⟨Nat.not_le.mp hlt, hrm⟩] at hend
    split at hend
    · split at hend
      · split at hend <;> simp at hend
      · exact absurd (hph.symm.trans hend) (by simp)
    · simp at hend
  -- the scan was at every position
  obtain ⟨i, hi, rfl⟩ := mem_iff_getElem.mp he
  obtain ⟨k, hk, hposn⟩ := exists_offset r.cursor hi
  refine h.served now offset hph k (hk.trans_le hdn) _ ?_
  rw [hposn]
  exact getElem?_eq_getElem hi

theorem Scheduled.due (hph : r.phase = .scanning now off) (hseen : r.seen = r.publications)
    (hend : (r.turn now off).phase = .waiting) :
    r.jobs.length = 8 ∨ ∀ id ∈ r.active, id ∈ r.jobs ∨
      ∃ entry ∈ r.entries, entry.pool = id ∧ entry.cancel = false ∧ now < entry.next := by
  refine (h.scanned hph hend).imp_right fun hserved id hid => ?_
  obtain ⟨entry, he, rfl⟩ := h.covered hseen (.inl (by rw [hph]; rfl)) id hid
  cases hcan : entry.cancel with
  | true => exact .inl (h.mem_jobs (by simp [hph]) (by simp [hph]) he hcan hid)
  | false =>
    refine .inr ⟨entry, he, rfl, hcan, ?_⟩
    exact ((hserved entry he).resolve_left (by simp [hcan])).resolve_right (not_not_intro hid)

/-! ### All steps -/

variable (hl : r.Lasting)

include hl

theorem Scheduled.source [DecidableEq A] (lib : PolicyLib A) (config : Layer4Dns)
    (eps : Option (List (Endpoint A))) : (r.source lib config eps).Scheduled := by
  rw [Runtime.source.eq_def]
  split
  · next draft eps hdraft =>
    split
    · exact h
    split
    · exact h
    split
    · next id hfound =>
      have hactive : id ∈ r.active :=
        (hl.roster.drafted draft hdraft).previous_eq ▸ mem_of_find?_eq_some hfound
      refine { h with drafted := ?_ }
      intro draft' hdraft' entry he hmem
      cases Option.some.inj hdraft'
      rcases mem_append.mp hmem with hmem | hmem
      · exact h.drafted draft hdraft entry he hmem
      · exact mem_singleton.mp hmem ▸ hactive
    split
    · next permits _ =>
      have hhdl : handle { r with
          pools := r.pools ++ [.new config draft.own eps permits] } = r.handle := by
        funext other
        rw [handle, handle]
        grind [Pool.new]
      refine { h.setPools hhdl (by simp) with drafted := ?_ }
      intro draft' hdraft' entry he hmem
      cases Option.some.inj hdraft'
      rcases mem_append.mp hmem with hmem | hmem
      · exact h.drafted draft hdraft entry he hmem
      · exact absurd (mem_singleton.mp hmem) (h.entry_lt entry he).ne
    · exact h
  · exact h

theorem Scheduled.look (hph : r.phase = .looking) : r.look.Scheduled := by
  have hrun : r.phase ≠ .stopped := by simp [hph]
  rw [Runtime.look]
  split
  · set rt := r.entries.filter fun entry => r.active.contains entry.pool with hretained
    obtain ⟨-, -, ha, hfr⟩ := addEntries_spec
      (fun id => .new id r.now (r.pools[id]?.any (·.cancel))) (fun _ => rfl) r.active
      (hl.spaced.entries_nodup.sublist (filter_sublist.map _) : (rt.map _).Nodup)
    -- an entry is one from before, or a new one that takes over the handle of its pool
    have hes {entry : Entry}
        (he : entry ∈ addEntries (fun id => .new id r.now (r.pools[id]?.any (·.cancel))) rt
          r.active) : entry.pool ∈ r.active ∧
          (entry ∈ r.entries ∨ entry.cancel = r.handle entry.pool) := by
      rcases hfr entry he with he | ⟨id, hid, rfl, -⟩
      · obtain ⟨he, hactive⟩ := mem_filter.mp he
        exact ⟨by simpa using hactive, .inl he⟩
      · exact ⟨hid, .inr rfl⟩
    refine { h with
      entry_of_job := fun entry he hj => ?_
      job_of_handle := fun _ => h.job_of_handle hrun
      job_of_entry := fun _ entry he hcan hactive => ?_
      applying := by simp
      revoking := fun _ => h.revoking (by simp [hph])
      entry_lt := fun entry he => hl.roster.active_lt _ (hes he).1
      drafted := fun _ _ entry he _ => (hes he).1
      seen_le := le_rfl
      idle := by simp
      covered := fun _ _ => ha
      served := by simp
      wake := by simp
      notified := by simp }
    · rcases (hes he).2 with he | heq
      · exact h.entry_of_job entry he hj
      · exact heq.trans (h.handle_of_job _ hj)
    · rcases (hes he).2 with he | heq
      · exact h.job_of_entry hrun entry he hcan hactive
      · exact .inl (h.job_of_handle hrun _ (heq.symm.trans hcan))
  · next hsm =>
    rw [not_or, not_not, not_not] at hsm
    refine h.setPhase (by rw [hph]; rfl) rfl (fun hse _ => ?_) (by simp) (by simp)
      fun _ hseen => absurd hsm.1 hseen
    by_cases hes : r.entries = []
    · have hactive : r.active = [] := by
        rw [← length_eq_zero_iff, ← hsm.2, hes, length_nil]
      intro id hid
      simp [hactive] at hid
    · exact h.covered hse (.inr hes)

/-- A lookup starts, and the scan goes on with the next entry. -/
theorem Scheduled.startJob (hph : r.phase = .scanning now off)
    (he : r.entries[(r.cursor + off) % r.entries.length]? = some entry)
    (hcan : entry.cancel = false) (hroom : r.jobs.length ≠ 8) (hcritical : r.critical = [])
    (hactive : entry.pool ∈ r.active) :
    Scheduled { r.startJob ((r.cursor + off) % r.entries.length) entry.pool now with
      phase := .scanning now (off + 1) } := by
  set i := (r.cursor + off) % r.entries.length
  have hid := hl.roster.active_lt entry.pool hactive
  have hrun : r.phase ≠ .stopped := by simp [hph]
  have hidle : entry.pool ∉ r.jobs := fun hjob =>
    absurd (h.entry_of_job entry (mem_of_getElem? he) hjob) (by simp [hcan])
  have hhdl : ∀ o, (r.startJob i entry.pool now).handle o =
      (decide (entry.pool = o) || r.handle o) := handle_startJob hid
  have hpast : r.phase.isPast = true := by rw [hph]; rfl
  have hpools : (r.entries.modify i (·.start now)).map Entry.pool = r.entries.map Entry.pool :=
    map_modify_of_eq (f := (·.start now)) (fun _ => rfl) r.entries i
  have hes {o : Entry} (ho : o ∈ r.entries.modify i (·.start now)) :=
    eq_or_mem_of_mem_modify hl.spaced.entries_nodup he ho
  refine {
    jobs_nodup := nodup_append.mpr ⟨h.jobs_nodup, nodup_singleton _, ?_⟩
    jobs_le := ?_
    entry_of_job := ?_
    handle_of_job := ?_
    job_of_handle := ?_
    job_of_entry := ?_
    applying := by simp
    revoking := fun _ => h.revoking (by simp [hph])
    entry_lt := fun o ho => ?_
    drafted := fun draft hdraft o ho hmem => ?_
    seen_le := h.seen_le
    idle := by simp
    covered := fun hseen _ => (h.covered hseen (.inl hpast)).of_pools rfl hpools
    served := ?_
    wake := by simp
    notified := fun _ hseen => (h.unseen hpast hseen).imp_right fun hne => absurd hcritical hne }
  · rintro a ha b hb rfl
    exact hidle (mem_singleton.mp hb ▸ ha)
  · refine length_append.trans_le ?_
    exact Nat.lt_of_le_of_ne h.jobs_le hroom
  · intro o ho hjob
    rcases hes ho with rfl | ⟨ho, hne⟩
    · rfl
    · refine h.entry_of_job o ho ((mem_append.mp hjob).resolve_right ?_)
      exact fun hmem => hne (mem_singleton.mp hmem).symm
  · intro o ho
    refine (hhdl o).trans (Bool.or_eq_true_iff.mpr ?_)
    rcases mem_append.mp ho with ho | ho
    · exact .inr (h.handle_of_job o ho)
    · exact .inl (decide_eq_true (mem_singleton.mp ho).symm)
  · intro _ o ho
    rcases Bool.or_eq_true_iff.mp ((hhdl o).symm.trans ho) with hsame | ho
    · exact mem_append_right _ (mem_singleton.mpr (of_decide_eq_true hsame).symm)
    · exact mem_append_left _ (h.job_of_handle hrun o ho)
  · intro _ o ho hset hmem
    left
    rcases hes ho with rfl | ⟨ho, -⟩
    · exact mem_append_right _ (mem_singleton_self _)
    · rcases h.job_of_entry hrun o ho hset hmem with hjob | ⟨fresh, hfin⟩
      · exact mem_append_left _ hjob
      · simp [hcritical] at hfin
  · obtain ⟨old, hold, heq⟩ := exists_pool_eq hpools.symm ho
    rw [← heq]
    exact (h.entry_lt old hold).trans_eq (length_modify ..).symm
  · obtain ⟨old, hold, heq⟩ := exists_pool_eq hpools.symm ho
    rw [← heq] at hmem ⊢
    exact h.drafted draft hdraft old hold hmem
  · intro scanned after heq k hk o ho
    cases heq
    -- the entry is the one that was started, or one that the scan was at before
    have hlen : (r.entries.modify i (·.start now)).length = r.entries.length := length_modify ..
    change (r.entries.modify i (·.start now))[(r.cursor + k) %
      (r.entries.modify i (·.start now)).length]? = some o at ho
    rw [hlen] at ho
    obtain ⟨old, hold, rfl⟩ := exists_of_getElem?_modify ho
    split
    · exact .inl rfl
    · next hne =>
      refine h.served now off hph k ?_ old hold
      refine Nat.lt_of_le_of_ne (Nat.lt_succ_iff.mp hk) fun heq => hne ?_
      rw [heq]

theorem Scheduled.turn (hph : r.phase = .scanning now off) : (r.turn now off).Scheduled := by
  have hfree : r.phase.isFree = true := by rw [hph]; rfl
  have hpast : r.phase.isPast = true := by rw [hph]; rfl
  have hcov (hse : r.seen = r.publications) : r.Covered := h.covered hse (.inl hpast)
  have hwt (cursor : Nat) : Scheduled { r with
      cursor, wake := r.wakeAt now r.metricsDeadline, phase := .waiting } :=
    h.setPhase hfree rfl (fun hse _ => hcov hse) (by simp) (fun _ => ⟨now, _, rfl⟩)
      fun _ => h.unseen hpast
  -- the scan goes on when it has nothing to do for the entry
  have hnx {entry : Entry} (he : r.entries[(r.cursor + off) % r.entries.length]? = some entry)
      (hsvd : r.Served now entry) : Scheduled { r with phase := .scanning now (off + 1) } := by
    refine h.setPhase hfree rfl (fun hse _ => hcov hse) (fun scanned after heq k hk o ho => ?_)
      (by simp) fun _ => h.unseen hpast
    cases heq
    rcases Nat.lt_succ_iff_lt_or_eq.mp hk with hk | rfl
    · exact h.served now off hph k hk o ho
    · exact Option.some.inj (he.symm.trans ho) ▸ hsvd
  rw [Runtime.turn]
  split
  · next entry he =>
    split
    · next hrm =>
      split
      · next hdu =>
        split
        · next hfree =>
          split
          · next hactive =>
            exact h.startJob hl hph he hdu.1 hrm.2 (isEmpty_iff.mp hfree) (by simpa using hactive)
          · next hactive => exact hnx he (.inr (.inr (by simpa using hactive)))
        · exact h
      · next hdu =>
        refine hnx he ?_
        rw [not_and, not_le] at hdu
        cases hcan : entry.cancel with
        | true => exact .inl hcan
        | false => exact .inr (.inl (hdu hcan))
    · exact hwt _
  · exact hwt r.cursor

/-- The result of a lookup is applied, and the next lookup of the pool is scheduled. -/
theorem Scheduled.finish {fresh : Option Nat}
    (hcritical : r.critical = .finish id fresh :: rest) (now : Nat) (jitter : UInt64) :
    Scheduled { r with
      entries := r.entries.modify (r.entries.findIdx (·.pool = id)) (·.finish now jitter fresh)
      critical := rest
      phase := r.phase.resume } := by
  -- only a result that is applied has such a task, and it is the last
  have hph : r.phase = .completing := by
    by_contra hph
    exact absurd (h.revoking hph _ (hcritical ▸ mem_cons_self)) (by simp [Task.revokes])
  obtain ⟨ts, other, l, heq, hactive, hj, hts⟩ := h.applying hph
  obtain ⟨rfl, rfl⟩ : other = id ∧ rest = [] := by
    cases ts with
    | nil =>
      obtain ⟨hhd, htl⟩ := cons.inj (hcritical.symm.trans heq)
      cases hhd
      exact ⟨rfl, htl⟩
    | cons f ts =>
      obtain ⟨hhd, -⟩ := cons.inj (hcritical.symm.trans heq)
      exact absurd hhd.symm ((hts f mem_cons_self).2 id fresh)
  have hrun : r.phase ≠ .stopped := by simp [hph]
  have hspec (entry : Entry) := entry.finish_spec now jitter fresh
  set i := r.entries.findIdx (·.pool = other)
  have hpools : (r.entries.modify i (·.finish now jitter fresh)).map Entry.pool =
      r.entries.map Entry.pool :=
    map_modify_of_eq (fun entry => (hspec entry).1) r.entries i
  -- the entry of the pool has no handle any more, and the others are as they were
  have hes (entry : Entry) (he : entry ∈ r.entries.modify i (·.finish now jitter fresh)) :
      entry.pool = other ∧ entry.cancel = false ∨ entry ∈ r.entries ∧ entry.pool ≠ other := by
    cases hold : r.entries[i]? with
    | none =>
      have hsm : r.entries.modify i (·.finish now jitter fresh) = r.entries :=
        modify_eq_self (getElem?_eq_none_iff.mp hold)
      rw [hsm] at he
      refine .inr ⟨he, fun heq => ?_⟩
      have hlt : i < r.entries.length := findIdx_lt_length_of_exists ⟨entry, he, decide_eq_true heq⟩
      exact absurd hlt (Nat.not_lt.mpr (getElem?_eq_none_iff.mp hold))
    | some old =>
      obtain ⟨hlt, rfl⟩ := List.getElem?_eq_some_iff.mp hold
      have hpo : (r.entries[i]).pool = other :=
        of_decide_eq_true (findIdx_getElem (p := fun entry : Entry => decide (entry.pool = other)))
      rcases eq_or_mem_of_mem_modify hl.spaced.entries_nodup hold he with rfl | he
      · exact .inl ⟨(hspec _).1.trans hpo, Entry.cancel_finish _ _ _ _⟩
      · exact .inr ⟨he.1, fun heq => he.2 (hpo.trans heq.symm)⟩
  rw [hph]
  refine { h with
    entry_of_job := ?_
    job_of_handle := fun _ => h.job_of_handle hrun
    job_of_entry := ?_
    applying := by simp [Phase.resume]
    revoking := by simp [Revoking]
    entry_lt := fun entry he => ?_
    drafted := fun draft hdraft entry he hmem => ?_
    idle := by simp [Phase.resume]
    covered := fun hse _ => (h.covered hse (.inl (by rw [hph]; rfl))).of_pools rfl hpools
    served := by simp [Phase.resume]
    wake := by simp [Phase.resume]
    notified := by simp [Phase.resume, Phase.isPast] }
  · intro entry he hmem
    rcases hes entry he with ⟨heq, -⟩ | ⟨he, -⟩
    · exact absurd (heq ▸ hmem) hj
    · exact h.entry_of_job entry he hmem
  · intro _ entry he hcan hmem
    rcases hes entry he with ⟨-, hnone⟩ | ⟨he, hne⟩
    · exact absurd (hnone.symm.trans hcan) (by simp)
    · left
      refine (h.job_of_entry hrun entry he hcan hmem).resolve_right ?_
      rintro ⟨fresh', hf⟩
      rw [hcritical, mem_singleton] at hf
      cases hf
      exact hne rfl
  · obtain ⟨old, hold, heq⟩ := exists_pool_eq hpools.symm he
    exact heq ▸ h.entry_lt old hold
  · rcases hes entry he with ⟨heq, -⟩ | ⟨he, -⟩
    · exact heq ▸ hactive
    · exact h.drafted draft hdraft entry he hmem

theorem Scheduled.task : r.task.Scheduled := by
  rw [Runtime.task.eq_def]
  split
  · exact h
  · next id rest hcritical =>
    have hclear : (r.modifyPool id Pool.clear).Scheduled := h.modify fun _ => rfl
    exact hclear.setTasks [.advance id] hcritical (by simp) (by simp [Task.pool, Task.revokes])
      (fun hch => hch) (by simp)
  · next id rest hcritical =>
    have hadvance : (r.modifyPool id (·.advance r.steps (r.active.contains id))).Scheduled :=
      h.modify fun _ => rfl
    exact hadvance.setTasks [] hcritical (by simp) (by simp)
      (fun hch => Bool.or_eq_true_iff.mpr (.inl hch))
      fun _ hempty => Bool.or_eq_true_iff.mpr (.inr (isEmpty_iff.mpr hempty))
  · next id s rest hcritical =>
    have hstore : (r.modifyPool id (·.store r.steps s)).Scheduled := h.modify fun _ => rfl
    -- a snapshot is stored only where a result is applied
    exact hstore.setTasks [] hcritical (by simp) (by simp) (fun hch => hch) fun hph =>
      absurd (h.revoking hph (.store id s) (by simp [hcritical])) (by simp [Task.revokes])
  · next id f rest hcritical =>
    exact { h.finish hl hcritical r.now
      (if f.isSome then r.jitter else nextJitter r.jitter) with }

/-- Whatever step is taken, entries, handles and lookups agree. -/
theorem Scheduled.step [DecidableEq A] (lib : PolicyLib A)
    (ev : Event A) : (r.step lib ev).Scheduled := by
  have hact : (r.act lib ev).Scheduled := by
    cases ev with
    | tick d =>
      dsimp only [act]
      split
      · exact { h with }
      · exact h
    | prepare own => exact h.prepare lib own
    | source config es => exact h.source hl lib config es
    | abandon => exact { h with drafted := by simp [act] }
    | publish => exact h.publish
    | run =>
      dsimp only [act]
      split
      · next hph => exact h.run hph
      · exact h
    | look =>
      dsimp only [act]
      split
      · next hph => exact h.look hl hph
      · exact h
    | scan deadline =>
      dsimp only [act]
      split
      · next hph =>
        have hpast : r.phase.isPast = true := by rw [hph]; rfl
        refine h.setPhase (by rw [hph]; rfl) rfl (fun hse _ => h.covered hse (.inl hpast))
          (fun now o heq k hk => ?_) (by simp) fun _ => h.unseen hpast
        cases heq
        exact absurd hk (Nat.not_lt_zero k)
      · exact h
    | turn =>
      dsimp only [act]
      split
      · next now o hph => exact h.turn hl hph
      · exact h
    | wake =>
      dsimp only [act]
      split
      · next hph =>
        have hlooking (changed : Bool) : Scheduled { r with phase := .looking, changed } :=
          h.setPhase (by rw [hph]; rfl) rfl
            (fun hse _ => h.covered hse (.inl (by rw [hph]; rfl))) (by simp) (by simp)
            (by simp [Phase.isPast])
        split
        · exact hlooking false
        · split
          · exact hlooking r.changed
          · exact h
      · exact h
    | complete id result => exact h.complete id result
    | fail id => exact h.fail id
    | stop => exact h.stop
    | drain id => exact h.drain id
    | task => exact h.task hl
  exact { hact with }

/-- With the lock free a scan comes to its end. -/
theorem Scheduled.scan_ends [DecidableEq A] (lib : PolicyLib A) (hph : r.phase = .scanning now off)
    (hcritical : r.critical = []) (hseen : r.seen = r.publications) :
    ∃ turns, ((replicate turns Event.turn).foldl (Runtime.step lib) r).Rounded r.active now := by
  induction hn : r.entries.length - off using Nat.strong_induction_on generalizing r off with
  | h n ih =>
    have hstep : r.step lib .turn = { r.turn now off with steps := r.steps + 1 } := by
      simp only [Runtime.step, act, hph]
    obtain ⟨hend, hcrit, hactive, hsn, hpub⟩ := turn_advances now off hcritical
    rcases hend with ⟨hwait, hentries, hjobs⟩ | ⟨hnext, hoff, hlen⟩
    · refine ⟨1, ?_⟩
      show (r.step lib .turn).Rounded r.active now
      rw [hstep]
      refine ⟨hwait, hactive, by simp [hsn, hpub, hseen], ?_⟩
      simpa [hentries, hjobs] using h.due hph hseen hwait
    · obtain ⟨turns, hturns⟩ := ih ((r.step lib .turn).entries.length - (off + 1))
        (by simp only [hstep, hlen]; omega) (h.step hl lib .turn) (hl.step lib .turn)
        (by simp [hstep, hnext]) (by simp [hstep, hcrit]) (by simp [hstep, hsn, hpub, hseen]) rfl
      refine ⟨turns + 1, ?_⟩
      rw [replicate_succ, foldl_cons]
      simpa [hstep, hactive] using hturns

/-- A coordinator that is woken while the lock is free goes round. -/
theorem Scheduled.rounds [DecidableEq A] (lib : PolicyLib A) (hph : r.phase = .waiting)
    (hcritical : r.critical = []) (hwake : r.changed = true ∨ r.wake ≤ r.now)
    (deadline : Option Nat) : ∃ turns, (r.round lib deadline turns).Rounded r.active r.now := by
  obtain ⟨hlooking, hcrit, hactive, hnow⟩ := step_wake lib hph hwake
  have hs := h.step hl lib .wake
  have hlast := hl.step lib .wake
  set woken := r.step lib .wake
  have hlook : woken.step lib .look = { woken.look with steps := woken.steps + 1 } := by
    simp only [Runtime.step, act, hlooking]
  have hs := hs.step hlast lib .look
  have hlast := hlast.step lib .look
  obtain ⟨hcrit', hactive', hnow'⟩ := look_keeps woken
  have hlooked : (woken.step lib .look).phase = .looked := by rw [hlook]; exact phase_look woken
  have hseen : (woken.step lib .look).seen = (woken.step lib .look).publications := by
    rw [hlook]
    exact seen_look woken
  have hkept : (woken.step lib .look).critical = [] ∧ (woken.step lib .look).active = r.active ∧
      (woken.step lib .look).now = r.now := by
    rw [hlook]
    exact ⟨hcrit'.trans (hcrit.trans hcritical), hactive'.trans hactive, hnow'.trans hnow⟩
  set looked := woken.step lib .look
  have hscan : looked.step lib (.scan deadline) =
      { looked with
        phase := .scanning r.now 0
        metricsDeadline := deadline
        steps := looked.steps + 1 } := by
    simp only [Runtime.step, act, hlooked, hkept.2.2]
  obtain ⟨turns, hturns⟩ := (hs.step hlast lib (.scan deadline)).scan_ends
    (hlast.step lib (.scan deadline)) lib (by rw [hscan]) (by rw [hscan]; exact hkept.1)
    (by rw [hscan]; exact hseen)
  have hsame : (looked.step lib (.scan deadline)).active = r.active := by
    rw [hscan]
    exact hkept.2.1
  exact ⟨turns, hsame ▸ hturns⟩

end Scheduled

end

end Runtime

end Pingclair.Dns
