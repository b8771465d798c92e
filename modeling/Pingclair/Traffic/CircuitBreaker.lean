import Mathlib.Data.List.Basic
import Pingclair.Lib.Durations
import Pingclair.Lib.Runs

/-!
# The circuit breaker

The circuit of a backend that keeps failing opens. When the time is over it is half-open and admits
a few probes; so many successes close it again, and a failure opens it again.

An admission is held by the request it was granted to, which reports outcomes, of which one counts,
and is dropped at the end. A probe may outlive the half-open episode in which it was granted, and
all episodes share one counter of probes in flight and one of successes. Times are milliseconds.
-/

namespace Pingclair

open List

inductive CircuitPhase where
  | closed
  | halfOpen
  | opened
  deriving DecidableEq

structure CircuitBreakerConfig where
  consecutiveFailures : Option Nat
  errorRatePercent : Option Nat
  minimumRequests : Nat
  windowRequests : Nat
  openDurationMs : Nat
  halfOpenRequests : Nat
  failureStatuses : List Nat

structure CircuitInner where
  phase : CircuitPhase
  openUntil : Option Nat
  consecutiveFailures : Nat
  outcomes : List Bool
  halfOpenInFlight : Nat
  halfOpenSuccesses : Nat

def CircuitInner.new : CircuitInner := ⟨.closed, none, 0, [], 0, 0⟩

namespace CircuitBreakerConfig

variable (config : CircuitBreakerConfig)

/-- Grants an admission, and says whether it is a probe. `none`: the circuit is open. -/
def admitRequest (inner : CircuitInner) (now : Nat) : Option (Bool × CircuitInner) :=
  match inner.phase with
  | .closed => some (false, inner)
  | .opened =>
    if inner.openUntil.any (now < ·) then none
    else some (true,
      { inner with phase := .halfOpen, halfOpenInFlight := 1, halfOpenSuccesses := 0 })
  | .halfOpen =>
    if inner.halfOpenInFlight ≥ config.halfOpenRequests then none
    else some (true, { inner with halfOpenInFlight := inner.halfOpenInFlight + 1 })

def trip (inner : CircuitInner) (now : Nat) : CircuitInner :=
  { inner with
    phase := .opened
    openUntil := some (now + config.openDurationMs)
    halfOpenInFlight := 0
    halfOpenSuccesses := 0 }

def completeProbe (inner : CircuitInner) (success : Bool) (now : Nat) : CircuitInner :=
  let inner := { inner with halfOpenInFlight := inner.halfOpenInFlight - 1 }
  if inner.phase ≠ .halfOpen then inner
  else if !success then config.trip inner now
  else
    let inner := { inner with halfOpenSuccesses := inner.halfOpenSuccesses + 1 }
    if inner.halfOpenSuccesses ≥ config.halfOpenRequests then
      { inner with phase := .closed, openUntil := none, consecutiveFailures := 0, outcomes := [] }
    else inner

def recordOutcome (inner : CircuitInner) (success : Bool) : CircuitInner :=
  let outcomes := inner.outcomes ++ [success]
  { inner with
    outcomes := if outcomes.length > config.windowRequests then outcomes.tail else outcomes
    consecutiveFailures := if success then 0 else min (inner.consecutiveFailures + 1) u32Max }

def failing (inner : CircuitInner) : Bool :=
  let consecutiveOpen := config.consecutiveFailures.any (inner.consecutiveFailures ≥ ·)
  let ratioOpen := config.errorRatePercent.any fun threshold =>
    inner.outcomes.length ≥ config.minimumRequests &&
      inner.outcomes.countP (!·) * 100 ≥ threshold * inner.outcomes.length
  consecutiveOpen || ratioOpen

def completeRequest (inner : CircuitInner) (success : Bool) (now : Nat) : CircuitInner :=
  if inner.phase ≠ .closed then inner
  else
    let inner := config.recordOutcome inner success
    if config.failing inner then config.trip inner now else inner

def complete (inner : CircuitInner) (probe success : Bool) (now : Nat) : CircuitInner :=
  if probe then config.completeProbe inner success now
  else config.completeRequest inner success now

end CircuitBreakerConfig

def CircuitInner.abandonProbe (inner : CircuitInner) : CircuitInner :=
  if inner.phase = .halfOpen then { inner with halfOpenInFlight := inner.halfOpenInFlight - 1 }
  else inner

@[simp] theorem CircuitInner.phase_abandonProbe (inner : CircuitInner) :
    inner.abandonProbe.phase = inner.phase := by
  rw [abandonProbe]
  split <;> rfl

structure CircuitAdmission where
  probe : Bool
  reported : Bool

namespace CircuitAdmission

variable (config : CircuitBreakerConfig) (admission : CircuitAdmission) (inner : CircuitInner)

def report (success : Bool) (now : Nat) : CircuitAdmission × CircuitInner :=
  if admission.reported then (admission, inner)
  else ({ admission with reported := true }, config.complete inner admission.probe success now)

def reportStatus (status now : Nat) : CircuitAdmission × CircuitInner :=
  let failed := if config.failureStatuses = [] then decide (500 ≤ status ∧ status ≤ 599)
    else decide (status ∈ config.failureStatuses)
  report config admission inner (!failed) now

def drop : CircuitInner :=
  if admission.probe && !admission.reported then inner.abandonProbe else inner

end CircuitAdmission

/-- An admission that has been granted, with its history: the episode it was granted in,
whether it reported a success, whether it has been dropped. -/
structure Granted extends CircuitAdmission where
  episode : Nat
  succeeded : Bool
  dropped : Bool

structure CircuitRun where
  inner : CircuitInner
  admissions : List Granted
  episode : Nat

inductive CircuitEvent where
  | admitRequest (now : Nat)
  | report (index : Nat) (success : Bool) (now : Nat)
  | drop (index : Nat)

namespace CircuitRun

variable (config : CircuitBreakerConfig)

def admitRequest (run : CircuitRun) (now : Nat) : CircuitRun :=
  match config.admitRequest run.inner now with
  | none => run
  | some (probe, inner) =>
    let episode := if run.inner.phase = .opened then run.episode + 1 else run.episode
    { inner, episode
      admissions := run.admissions ++
        [{ probe, reported := false, episode, succeeded := false, dropped := false }] }

/-- A report by the holder of an admission. One that has been dropped has no holder. -/
def report (run : CircuitRun) (index : Nat) (success : Bool) (now : Nat) : CircuitRun :=
  match run.admissions[index]? with
  | none => run
  | some granted =>
    if granted.dropped then run
    else
      let (admission, inner) := granted.toCircuitAdmission.report config run.inner success now
      let succeeded := if granted.reported then granted.succeeded else success
      { run with
        inner
        admissions := run.admissions.set index
          { granted with toCircuitAdmission := admission, succeeded } }

def drop (run : CircuitRun) (index : Nat) : CircuitRun :=
  match run.admissions[index]? with
  | none => run
  | some granted =>
    if granted.dropped then run
    else
      { run with
        inner := granted.toCircuitAdmission.drop run.inner
        admissions := run.admissions.set index { granted with dropped := true } }

def step (run : CircuitRun) : CircuitEvent → CircuitRun
  | .admitRequest now => run.admitRequest config now
  | .report index success now => run.report config index success now
  | .drop index => run.drop index

end CircuitRun

def CircuitBreakerConfig.breaker (config : CircuitBreakerConfig) :
    Machine CircuitRun CircuitEvent where
  start := ⟨.new, [], 0⟩
  step := CircuitRun.step config

namespace Granted

variable (granted : Granted)

def outstanding : Bool := granted.probe && !granted.reported && !granted.dropped

def settle (success : Bool) : Granted :=
  { granted with reported := true, succeeded := success }

def discard : Granted := { granted with dropped := true }

@[simp] theorem outstanding_settle (success : Bool) :
    (granted.settle success).outstanding = false := by
  simp [outstanding, settle]

@[simp] theorem succeeded_settle (success : Bool) :
    (granted.settle success).succeeded = success := rfl

@[simp] theorem outstanding_discard : granted.discard.outstanding = false := by
  simp [outstanding, discard]

end Granted

namespace CircuitRun

def outstanding (run : CircuitRun) : Nat :=
  run.admissions.countP fun granted => granted.outstanding && granted.episode == run.episode

def succeeded (run : CircuitRun) : Nat :=
  run.admissions.countP fun granted =>
    granted.probe && granted.succeeded && granted.episode == run.episode

/-- An outstanding probe of an earlier episode. -/
def Stale (run : CircuitRun) (index : Nat) : Prop :=
  ∃ granted ∈ run.admissions[index]?, granted.outstanding = true ∧ granted.episode ≠ run.episode

instance (run : CircuitRun) (index : Nat) : Decidable (run.Stale index) :=
  inferInstanceAs (Decidable (∃ granted ∈ run.admissions[index]?,
    granted.outstanding = true ∧ granted.episode ≠ run.episode))

/-! ### What a step can do -/

/-- The counters of the circuit, and what they should count. -/
structure Tally where
  inFlight : Nat
  successes : Nat
  outstanding : Nat
  succeeded : Nat

def tally (run : CircuitRun) : Tally where
  inFlight := run.inner.halfOpenInFlight
  successes := run.inner.halfOpenSuccesses
  outstanding := run.outstanding
  succeeded := run.succeeded

variable (config : CircuitBreakerConfig)

def WellFormed (run : CircuitRun) : Prop :=
  ∀ granted ∈ run.admissions, granted.episode ≤ run.episode ∧
    (granted.succeeded = true → granted.reported = true)

/-- The steps that end half-open, by what they do to the tally. -/
inductive HalfOpenStep (run : CircuitRun) : CircuitEvent → Tally → Prop
  | quiet (event : CircuitEvent) : run.inner.phase = .halfOpen → HalfOpenStep run event run.tally
  | enter (now : Nat) : HalfOpenStep run (.admitRequest now) ⟨1, 0, 1, 0⟩
  | grant (now : Nat) : run.inner.phase = .halfOpen →
      run.tally.inFlight < config.halfOpenRequests →
      HalfOpenStep run (.admitRequest now)
        { run.tally with
          inFlight := run.tally.inFlight + 1
          outstanding := run.tally.outstanding + 1 }
  | success (index now : Nat) (t : Tally) : run.inner.phase = .halfOpen →
      t.inFlight = run.tally.inFlight - 1 → t.successes = run.tally.successes + 1 →
      (¬ run.Stale index → t.outstanding + 1 = run.tally.outstanding ∧
        t.succeeded = run.tally.succeeded + 1) →
      HalfOpenStep run (.report index true now) t
  | abandon (index : Nat) (t : Tally) : run.inner.phase = .halfOpen →
      t.inFlight = run.tally.inFlight - 1 → t.successes = run.tally.successes →
      t.succeeded = run.tally.succeeded →
      (¬ run.Stale index → t.outstanding + 1 = run.tally.outstanding) →
      HalfOpenStep run (.drop index) t

variable {config} {run : CircuitRun}

open CircuitBreakerConfig in
/-- Whatever is reported and dropped, a circuit that opens grants nothing until its time is over. -/
theorem refuses_while_open (now : Nat) (events : List CircuitEvent) :
    let deadline := now + config.openDurationMs
    let early := events.filter fun
      | .admitRequest now => now < deadline
      | _ => true
    let later := early.foldl (step config) { run with inner := config.trip run.inner now }
    later.inner.phase = .opened ∧ later.inner.openUntil = some deadline ∧
      later.admissions.length = run.admissions.length := by
  intro deadline early
  refine early.foldlRecOn (motive := fun r : CircuitRun => r.inner.phase = .opened ∧
    r.inner.openUntil = some deadline ∧ r.admissions.length = run.admissions.length) _
    ⟨rfl, rfl, rfl⟩ fun r h event hm => ?_
  cases event with
  | admitRequest now =>
    have hnow : now < deadline := by simpa using (mem_filter.mp hm).2
    simp [step, admitRequest, CircuitBreakerConfig.admitRequest, h, hnow]
  | report i success now =>
    grind [step, report, CircuitAdmission.report, complete, completeProbe, completeRequest]
  | drop i => grind [step, drop, CircuitAdmission.drop, CircuitInner.abandonProbe]

theorem WellFormed.countP_later (hwf : run.WellFormed) (p : Granted → Bool) :
    run.admissions.countP (fun granted => p granted && granted.episode == run.episode + 1) = 0 := by
  rw [countP_eq_zero]
  intro granted hg
  have := (hwf granted hg).1
  simp only [Bool.and_eq_true, beq_iff_eq, not_and]
  omega

variable {now : Nat}

/-- What an admission does to the circuit, by its phase. -/
theorem admitRequest_cases {inner inner' : CircuitInner} {probe : Bool}
    (h : config.admitRequest inner now = some (probe, inner')) :
    inner.phase = .closed ∧ probe = false ∧ inner' = inner ∨
      inner.phase = .opened ∧ probe = true ∧ inner' = { inner with
        phase := .halfOpen, halfOpenInFlight := 1, halfOpenSuccesses := 0 } ∨
      inner.phase = .halfOpen ∧ probe = true ∧ inner.halfOpenInFlight < config.halfOpenRequests ∧
        inner' = { inner with halfOpenInFlight := inner.halfOpenInFlight + 1 } := by
  rw [CircuitBreakerConfig.admitRequest] at h
  split at h
  · next hph =>
    cases h
    exact .inl ⟨hph, rfl, rfl⟩
  · next hph =>
    split at h
    · cases h
    · cases h
      exact .inr (.inl ⟨hph, rfl, rfl⟩)
  · next hph =>
    split at h
    · cases h
    · next hrm =>
      cases h
      exact .inr (.inr ⟨hph, rfl, Nat.lt_of_not_ge hrm, rfl⟩)

theorem admitRequest_halfOpen (hwf : run.WellFormed)
    (hnx : (run.admitRequest config now).inner.phase = .halfOpen) :
    HalfOpenStep config run (.admitRequest now) (run.admitRequest config now).tally := by
  rw [admitRequest] at hnx ⊢
  split at hnx
  · exact .quiet _ hnx
  · next p inner hadm =>
    rcases admitRequest_cases hadm with ⟨hph, -, rfl⟩ | ⟨hph, rfl, rfl⟩ |
      ⟨hph, rfl, hrm, rfl⟩
    · exact absurd (hph.symm.trans hnx) (by decide)
    · convert HalfOpenStep.enter now using 1
      simp [tally, outstanding, succeeded, countP_append, hph, hwf.countP_later,
        Granted.outstanding]
    · convert HalfOpenStep.grant now hph hrm using 1
      simp [tally, outstanding, succeeded, countP_append, hph, Granted.outstanding]

section

variable {index : Nat} {granted : Granted} {inner : CircuitInner}

theorem report_eq_self
    (hnone : ∀ granted ∈ run.admissions[index]?, granted.dropped = true ∨ granted.reported = true)
    (success : Bool) (now : Nat) : run.report config index success now = run := by
  rw [report]
  cases hg : run.admissions[index]? with
  | none => rfl
  | some granted =>
    by_cases hdr : granted.dropped = true
    · simp [hdr]
    · have hrep := (hnone granted hg).resolve_left hdr
      have hset : run.admissions.set index granted = run.admissions := by
        obtain ⟨hidx, rfl⟩ := List.getElem?_eq_some_iff.mp hg
        exact set_getElem_self hidx
      show (if granted.dropped = true then run else _) = run
      rw [if_neg hdr]
      simp only [CircuitAdmission.report, hrep, if_true]
      exact congrArg (CircuitRun.mk run.inner · run.episode) hset

theorem drop_eq_self (hnone : ∀ granted ∈ run.admissions[index]?, granted.dropped = true) :
    run.drop index = run := by
  rw [drop]
  cases hg : run.admissions[index]? with
  | none => rfl
  | some granted => simp [hnone granted hg]

variable (hg : run.admissions[index]? = some granted)

include hg

theorem outstanding_set {settled : Granted} (hset : settled.outstanding = false) :
    outstanding ⟨inner, run.admissions.set index settled, run.episode⟩ +
      (if granted.outstanding && granted.episode == run.episode then 1 else 0) =
        run.outstanding := by
  rw [outstanding, countP_set_add hg, hset]
  rfl

theorem succeeded_set {settled : Granted}
    (hep : settled.episode = granted.episode) (hprb : settled.probe = granted.probe) :
    succeeded ⟨inner, run.admissions.set index settled, run.episode⟩ +
      (if granted.probe && granted.succeeded && granted.episode == run.episode then 1 else 0) =
        run.succeeded +
      (if granted.probe && settled.succeeded && granted.episode == run.episode then 1 else 0) := by
  rw [succeeded, countP_set_add hg, succeeded, hep, hprb]

/-- An admission that is not outstanding changes no count when it is settled again. -/
theorem tally_set (settled : Granted)
    (hep : settled.episode = granted.episode) (hprb : settled.probe = granted.probe)
    (hb : granted.outstanding = false) (hset : settled.outstanding = false)
    (hsuc : granted.probe = true → settled.succeeded = granted.succeeded) :
    tally ⟨run.inner, run.admissions.set index settled, run.episode⟩ = run.tally := by
  have hout : outstanding ⟨run.inner, run.admissions.set index settled, run.episode⟩ + _ = _ :=
    outstanding_set hg hset
  have hsucc : succeeded ⟨run.inner, run.admissions.set index settled, run.episode⟩ + _ = _ :=
    succeeded_set hg hep hprb
  have hsm : (granted.probe && settled.succeeded) = (granted.probe && granted.succeeded) := by
    cases hp : granted.probe with
    | false => rfl
    | true => rw [hsuc hp]
  rw [hb] at hout
  rw [hsm] at hsucc
  rw [tally, tally, Nat.add_right_cancel hsucc]
  exact congrArg (Tally.mk _ _ · _) hout

/-- A first report. -/
theorem report_eq (hdr : granted.dropped = false)
    (hrep : granted.reported = false) (success : Bool) (now : Nat) :
    run.report config index success now =
      ⟨config.complete run.inner granted.probe success now,
        run.admissions.set index (granted.settle success), run.episode⟩ := by
  simp [report, hg, hdr, CircuitAdmission.report, hrep, Granted.settle]

theorem drop_eq (hdr : granted.dropped = false) :
    run.drop index = ⟨granted.toCircuitAdmission.drop run.inner,
      run.admissions.set index granted.discard, run.episode⟩ := by
  simp [drop, hg, hdr, Granted.discard]

end

/-- Whether an admission is still held by somebody who has not reported. -/
theorem pending_cases (run : CircuitRun) (index : Nat) :
    (∀ granted ∈ run.admissions[index]?, granted.dropped = true ∨ granted.reported = true) ∨
      ∃ granted, run.admissions[index]? = some granted ∧ granted.dropped = false ∧
        granted.reported = false := by
  cases hg : run.admissions[index]? with
  | none => exact .inl (by simp)
  | some granted =>
    cases hdr : granted.dropped with
    | true => exact .inl (by simp [hdr])
    | false =>
      cases hrep : granted.reported with
      | true => exact .inl (by simp [hrep])
      | false => exact .inr ⟨granted, rfl, hdr, hrep⟩

variable {inner : CircuitInner} {success : Bool}

/-- A request that is no probe does nothing to a half-open circuit, and makes none. -/
theorem completeRequest_halfOpen
    (h : (config.completeRequest inner success now).phase = .halfOpen) :
    inner.phase = .halfOpen ∧ config.completeRequest inner success now = inner := by
  rw [CircuitBreakerConfig.completeRequest] at h ⊢
  by_cases hph : inner.phase = .closed
  · rw [if_neg (not_not.mpr hph)] at h
    have hrec : (config.recordOutcome inner success).phase = .closed := hph
    dsimp only at h
    split at h
    · cases h
    · exact absurd (hrec.symm.trans h) (by decide)
  · rw [if_pos hph] at h ⊢
    exact ⟨h, rfl⟩

/-- The one outcome of a probe that leaves the circuit half-open. -/
theorem completeProbe_halfOpen (h : (config.completeProbe inner success now).phase = .halfOpen) :
    inner.phase = .halfOpen ∧ success = true ∧
      config.completeProbe inner success now =
        { inner with
          halfOpenInFlight := inner.halfOpenInFlight - 1
          halfOpenSuccesses := inner.halfOpenSuccesses + 1 } := by
  rw [CircuitBreakerConfig.completeProbe] at h ⊢
  by_cases hph : inner.phase = .halfOpen
  · cases success with
    | false =>
      simp [hph, CircuitBreakerConfig.trip] at h
    | true =>
      simp only [hph, ne_eq, not_true_eq_false, if_false, Bool.not_true, Bool.false_eq_true] at h ⊢
      split at h
      · cases h
      · next hmo =>
        rw [if_neg hmo]
        exact ⟨trivial, trivial, rfl⟩
  · simp [hph] at h

theorem completeProbe_closed (hph : inner.phase = .halfOpen)
    (h : (config.completeProbe inner success now).phase = .closed) :
    success = true ∧ config.halfOpenRequests ≤ inner.halfOpenSuccesses + 1 := by
  rw [CircuitBreakerConfig.completeProbe] at h
  cases success with
  | false => simp [hph, CircuitBreakerConfig.trip] at h
  | true =>
    simp only [hph, ne_eq, not_true_eq_false, if_false, Bool.not_true, Bool.false_eq_true] at h
    split at h
    · next henough => exact ⟨rfl, henough⟩
    · cases h

/-- A probe of the present episode is outstanding no more. -/
theorem outstanding_fresh {index : Nat} {granted settled : Granted}
    (hg : run.admissions[index]? = some granted) (hop : granted.outstanding = true)
    (hset : settled.outstanding = false) (hfr : ¬ run.Stale index) :
    granted.episode = run.episode ∧
      outstanding ⟨inner, run.admissions.set index settled, run.episode⟩ + 1 = run.outstanding := by
  have hep : granted.episode = run.episode := by
    by_contra ho
    exact hfr ⟨granted, hg, hop, ho⟩
  have hout : outstanding ⟨inner, run.admissions.set index settled, run.episode⟩ + _ = _ :=
    outstanding_set hg hset
  simp only [hop, hep, BEq.rfl, Bool.and_self, if_true] at hout
  exact ⟨hep, hout⟩

/-- A probe of the present episode reports a success. -/
theorem settle_fresh {index : Nat} {granted : Granted} (hwf : run.WellFormed)
    (hg : run.admissions[index]? = some granted) (hprb : granted.probe = true)
    (hrep : granted.reported = false) (hdr : granted.dropped = false) (hfr : ¬ run.Stale index) :
    outstanding ⟨inner, run.admissions.set index (granted.settle true), run.episode⟩ + 1 =
        run.outstanding ∧
      succeeded ⟨inner, run.admissions.set index (granted.settle true), run.episode⟩ =
        run.succeeded + 1 := by
  obtain ⟨hep, hout⟩ := outstanding_fresh hg
    (by simp [Granted.outstanding, hprb, hrep, hdr]) (granted.outstanding_settle true)
    hfr
  have hf : granted.succeeded = false := by
    have := (hwf granted (mem_of_getElem? hg)).2
    cases hs : granted.succeeded with
    | false => rfl
    | true => exact absurd (this hs) (by simp [hrep])
  have hsucc : succeeded ⟨inner, run.admissions.set index (granted.settle true), run.episode⟩ + _ =
      _ := succeeded_set hg rfl rfl
  simp only [hf, hprb, hep, BEq.rfl, Bool.and_false, Bool.false_and, Bool.false_eq_true,
    if_false, Granted.succeeded_settle, Bool.and_self, if_true, Nat.add_zero] at hsucc
  exact ⟨hout, hsucc⟩

theorem report_halfOpen (hwf : run.WellFormed) {index : Nat}
    (hnx : (run.report config index success now).inner.phase = .halfOpen) :
    HalfOpenStep config run (.report index success now)
      (run.report config index success now).tally := by
  rcases pending_cases run index with hnone | ⟨g, hg, hdr, hrep⟩
  · rw [report_eq_self hnone] at hnx ⊢
    exact .quiet _ hnx
  · rw [report_eq hg hdr hrep] at hnx ⊢
    cases hprb : g.probe with
    | false =>
      rw [hprb] at hnx
      obtain ⟨hph, hsm⟩ := completeRequest_halfOpen hnx
      have hcomp : config.complete run.inner false success now = run.inner := hsm
      have htally := tally_set hg (g.settle success) rfl rfl
        (by simp [Granted.outstanding, hprb]) (g.outstanding_settle success)
        (by simp [hprb])
      rw [hcomp, htally]
      exact .quiet _ hph
    | true =>
      rw [hprb] at hnx
      obtain ⟨hph, rfl, hin⟩ := completeProbe_halfOpen hnx
      refine .success index now _ hph (congrArg CircuitInner.halfOpenInFlight hin)
        (congrArg CircuitInner.halfOpenSuccesses hin) fun hfr => ?_
      exact settle_fresh hwf hg hprb hrep hdr hfr

theorem drop_halfOpen {index : Nat} (hnx : (run.drop index).inner.phase = .halfOpen) :
    HalfOpenStep config run (.drop index) (run.drop index).tally := by
  cases hg : run.admissions[index]? with
  | none =>
    rw [drop_eq_self (by simp [hg])] at hnx ⊢
    exact .quiet _ hnx
  | some g =>
    cases hdr : g.dropped with
    | true =>
      rw [drop_eq_self (by simp [hg, hdr])] at hnx ⊢
      exact .quiet _ hnx
    | false =>
      rw [drop_eq hg hdr] at hnx ⊢
      cases hop : g.probe && !g.reported with
      | false =>
        have hdrop : g.toCircuitAdmission.drop run.inner = run.inner := by
          rw [CircuitAdmission.drop, hop]
          rfl
        have htally := tally_set hg g.discard rfl rfl
          (by rw [Granted.outstanding, hop]; rfl) g.outstanding_discard fun _ => rfl
        rw [hdrop] at hnx
        rw [hdrop, htally]
        exact .quiet _ hnx
      | true =>
        have hdrop : g.toCircuitAdmission.drop run.inner = run.inner.abandonProbe := by
          rw [CircuitAdmission.drop, hop]
          rfl
        rw [hdrop] at hnx ⊢
        have hph : run.inner.phase = .halfOpen := run.inner.phase_abandonProbe ▸ hnx
        rw [CircuitInner.abandonProbe, if_pos hph]
        have hsucc : succeeded ⟨{ run.inner with
              halfOpenInFlight := run.inner.halfOpenInFlight - 1 },
            run.admissions.set index g.discard, run.episode⟩ + _ = _ :=
          succeeded_set hg rfl rfl
        refine .abandon index _ hph rfl rfl (Nat.add_right_cancel hsucc) fun hfr => ?_
        have houtstanding : g.outstanding = true := by
          rw [Granted.outstanding, hop, hdr]
          rfl
        exact (outstanding_fresh hg houtstanding g.outstanding_discard hfr).2

variable {event : CircuitEvent}

/-- Every step that ends half-open is one of those above. -/
theorem step_halfOpen (hwf : run.WellFormed)
    (hnx : (run.step config event).inner.phase = .halfOpen) :
    HalfOpenStep config run event (run.step config event).tally := by
  cases event with
  | admitRequest now => exact admitRequest_halfOpen hwf hnx
  | report i s now => exact report_halfOpen hwf hnx
  | drop i => exact drop_halfOpen hnx

/-- A half-open circuit closes on the report that completes its successes. -/
theorem step_closed (hwf : run.WellFormed) (hph : run.inner.phase = .halfOpen)
    (hnx : (run.step config event).inner.phase = .closed) :
    ∃ index now, event = .report index true now ∧
      config.halfOpenRequests ≤ run.tally.successes + 1 ∧
      (¬ run.Stale index → (run.step config event).succeeded = run.tally.succeeded + 1) := by
  cases event with
  | admitRequest now =>
    have hsm : (run.admitRequest config now).inner.phase = .halfOpen := by
      rw [admitRequest, CircuitBreakerConfig.admitRequest, hph]
      dsimp only
      split
      · exact hph
      · next hadm =>
        split at hadm
        · cases hadm
        · cases hadm
          rfl
    exact absurd (hsm.symm.trans hnx) (by decide)
  | drop index =>
    have hsm : (run.drop index).inner.phase = run.inner.phase := by
      rw [drop]
      split
      · rfl
      · split
        · rfl
        · rw [CircuitAdmission.drop]
          split
          · exact run.inner.phase_abandonProbe
          · rfl
    exact absurd ((hsm.trans hph).symm.trans hnx) (by decide)
  | report index s now =>
    change (run.report config index s now).inner.phase = .closed at hnx
    rcases pending_cases run index with hnone | ⟨g, hg, hdr, hrep⟩
    · rw [report_eq_self hnone] at hnx
      exact absurd (hph.symm.trans hnx) (by decide)
    · rw [report_eq hg hdr hrep] at hnx
      cases hprb : g.probe with
      | false =>
        have hsm : config.complete run.inner g.probe s now = run.inner := by
          rw [hprb]
          show config.completeRequest run.inner s now = run.inner
          rw [CircuitBreakerConfig.completeRequest, if_pos (by rw [hph]; decide)]
        rw [hsm] at hnx
        exact absurd (hph.symm.trans hnx) (by decide)
      | true =>
        rw [hprb] at hnx
        obtain ⟨rfl, henough⟩ := completeProbe_closed hph hnx
        refine ⟨index, now, rfl, henough, fun hfr => ?_⟩
        change (run.report config index true now).succeeded = run.succeeded + 1
        rw [report_eq hg hdr hrep]
        exact (settle_fresh hwf hg hprb hrep hdr hfr).2

/-- Replacing an admission by a later state of itself. -/
theorem WellFormed.set (hwf : run.WellFormed) {index : Nat} {granted settled : Granted}
    (hg : run.admissions[index]? = some granted) (hep : settled.episode = granted.episode)
    (hrep : settled.succeeded = true → settled.reported = true) :
    WellFormed ⟨inner, run.admissions.set index settled, run.episode⟩ := by
  intro o ho
  rcases mem_or_eq_of_mem_set ho with hmem | rfl
  · exact hwf o hmem
  · exact ⟨hep ▸ (hwf granted (mem_of_getElem? hg)).1, hrep⟩

theorem WellFormed.step (hwf : run.WellFormed) (event : CircuitEvent) :
    (run.step config event).WellFormed := by
  cases event with
  | admitRequest now =>
    show (run.admitRequest config now).WellFormed
    rw [admitRequest]
    split
    · exact hwf
    · intro granted hg
      rcases mem_append.mp hg with hold | hnew
      · refine ⟨Nat.le_trans (hwf granted hold).1 ?_, (hwf granted hold).2⟩
        dsimp only
        split <;> omega
      · rw [mem_singleton.mp hnew]
        exact ⟨Nat.le_refl _, by simp⟩
  | report index success now =>
    show (run.report config index success now).WellFormed
    rcases pending_cases run index with hnone | ⟨granted, hg, hdr, hrep⟩
    · rwa [report_eq_self hnone]
    · rw [report_eq hg hdr hrep]
      exact hwf.set hg rfl fun _ => rfl
  | drop index =>
    show (run.drop index).WellFormed
    rw [drop]
    split
    · exact hwf
    · next granted hg =>
      split
      · exact hwf
      · exact hwf.set hg rfl (hwf granted (mem_of_getElem? hg)).2

/-- An event does not complete a probe of an earlier episode while the circuit is half-open.
A failure is no harm: it opens the circuit. -/
def Fresh (run : CircuitRun) : CircuitEvent → Prop
  | .report index true _ | .drop index => run.inner.phase = .halfOpen → ¬ run.Stale index
  | _ => True

/-- An event reports no success of a probe of an earlier episode to a half-open circuit. -/
def FreshSuccess (run : CircuitRun) : CircuitEvent → Prop
  | .report index true _ => run.inner.phase = .halfOpen → ¬ run.Stale index
  | _ => True

instance (run : CircuitRun) : (event : CircuitEvent) → Decidable (run.Fresh event)
  | .report index true _ | .drop index =>
    inferInstanceAs (Decidable (run.inner.phase = .halfOpen → ¬ run.Stale index))
  | .report _ false _ | .admitRequest _ => inferInstanceAs (Decidable True)

instance (run : CircuitRun) : (event : CircuitEvent) → Decidable (run.FreshSuccess event)
  | .report index true _ =>
    inferInstanceAs (Decidable (run.inner.phase = .halfOpen → ¬ run.Stale index))
  | .report _ false _ | .admitRequest _ | .drop _ => inferInstanceAs (Decidable True)

/-- While the circuit is half-open, as many slots are taken as probes are outstanding. -/
def SlotsExact (config : CircuitBreakerConfig) (t : Tally) : Prop :=
  t.inFlight = t.outstanding ∧ t.inFlight ≤ config.halfOpenRequests

theorem HalfOpenStep.slotsExact {t : Tally} (hst : HalfOpenStep config run event t)
    (hn : 1 ≤ config.halfOpenRequests) (hfr : run.Fresh event)
    (h : run.inner.phase = .halfOpen → SlotsExact config run.tally) : SlotsExact config t := by
  cases hst with
  | quiet _ hph => exact h hph
  | enter => exact ⟨rfl, hn⟩
  | grant _ hph hrm =>
    obtain ⟨hex, -⟩ := h hph
    exact ⟨congrArg (· + 1) hex, hrm⟩
  | success i now t hph hin hsucc how =>
    obtain ⟨hex, hle⟩ := h hph
    obtain ⟨hout, -⟩ := how (hfr hph)
    constructor <;> omega
  | abandon i t hph hin hsucc hsuc how =>
    obtain ⟨hex, hle⟩ := h hph
    have hout := how (hfr hph)
    constructor <;> omega

theorem HalfOpenStep.successes_eq {t : Tally}
    (hst : HalfOpenStep config run event t) (hfr : run.FreshSuccess event)
    (h : run.inner.phase = .halfOpen → run.tally.successes = run.tally.succeeded) :
    t.successes = t.succeeded := by
  cases hst with
  | quiet _ hph => exact h hph
  | enter => rfl
  | grant _ hph hrm => exact h hph
  | success i now t hph hin hsucc how =>
    have heq := h hph
    obtain ⟨-, hsuc⟩ := how (hfr hph)
    omega
  | abandon i t hph hin hsucc hsuc how =>
    have heq := h hph
    omega

theorem wellFormed_start : config.breaker.start.WellFormed := by
  intro g hg
  cases hg

/-- What every allowed step that ends half-open gives the tally holds whenever the circuit is
half-open. -/
theorem tally_of_reachable {allowed : CircuitRun → CircuitEvent → Prop} {P : Tally → Prop}
    (hst : ∀ before event t, HalfOpenStep config before event t → allowed before event →
      (before.inner.phase = .halfOpen → P before.tally) → P t)
    (h : config.breaker.Reachable allowed run) :
    run.WellFormed ∧ (run.inner.phase = .halfOpen → P run.tally) := by
  refine h.invariant (I := fun run =>
    run.WellFormed ∧ (run.inner.phase = .halfOpen → P run.tally)) ?_ ?_
  · exact ⟨wellFormed_start, fun hph => by cases hph⟩
  · rintro before event ⟨hwf, htally⟩ hallowed
    refine ⟨hwf.step event, fun hnx => ?_⟩
    exact hst before event _ (step_halfOpen hwf hnx) hallowed htally

/-- In every run in which no probe of an earlier half-open episode succeeds or is dropped while
the circuit is half-open, at most `half_open_requests` of the present episode's probes are
outstanding at any moment. -/
theorem outstanding_le (hn : 1 ≤ config.halfOpenRequests) (h : config.breaker.Reachable Fresh run)
    (hphase : run.inner.phase = .halfOpen) : run.outstanding ≤ config.halfOpenRequests := by
  have hslots := tally_of_reachable (P := SlotsExact config)
    (fun _ _ _ hst hfr => hst.slotsExact hn hfr) h
  obtain ⟨hex, hle⟩ := hslots.2 hphase
  exact Nat.le_trans (Nat.le_of_eq hex.symm) hle

def twoProbes : CircuitBreakerConfig where
  consecutiveFailures := some 1
  errorRatePercent := none
  minimumRequests := 1
  windowRequests := 4
  openDurationMs := 10
  halfOpenRequests := 2
  failureStatuses := []

def firstEpisode : List CircuitEvent :=
  [.admitRequest 0, .report 0 false 0, .admitRequest 10, .admitRequest 10]

theorem outstanding_le_firstEpisode :
    (twoProbes.breaker.run firstEpisode).inner.phase = .halfOpen ∧
      (twoProbes.breaker.run firstEpisode).outstanding = 2 ∧
      (twoProbes.breaker.run firstEpisode).outstanding ≤ twoProbes.halfOpenRequests :=
  ⟨rfl, rfl, outstanding_le (by decide) (Machine.reachable_run (by decide)) rfl⟩

/-- The first of the two probes fails and the circuit opens; at 20 it is half-open again, with
the second probe still out. -/
def secondEpisode : List CircuitEvent := firstEpisode ++ [.report 1 false 10, .admitRequest 20]

/-- When the probe of the first episode is dropped in the second, it gives back a slot that it
does not hold, and three probes of the second are out. -/
theorem outstanding_gt_of_stale :
    ∃ run, twoProbes.breaker.Reachable (fun _ _ => True) run ∧
      run.inner.phase = .halfOpen ∧ ¬ run.outstanding ≤ twoProbes.halfOpenRequests :=
  ⟨twoProbes.breaker.run (secondEpisode ++ [.admitRequest 20, .drop 2, .admitRequest 20]),
    Machine.reachable_run (by decide), rfl, by decide⟩

/-- In every run in which no probe of an earlier half-open episode succeeds while the circuit is
half-open, the circuit closes only after `half_open_requests` of the present episode's probes
have succeeded. -/
theorem closed_of_successes {event : CircuitEvent} (h : config.breaker.Reachable FreshSuccess run)
    (hfresh : run.FreshSuccess event) (hphase : run.inner.phase = .halfOpen)
    (hclosed : (run.step config event).inner.phase = .closed) :
    config.halfOpenRequests ≤ (run.step config event).succeeded := by
  obtain ⟨hwf, heq⟩ := tally_of_reachable (P := fun t => t.successes = t.succeeded)
    (fun _ _ _ hst hfresh => hst.successes_eq hfresh) h
  obtain ⟨i, now, rfl, hle, how⟩ := step_closed hwf hphase hclosed
  calc config.halfOpenRequests ≤ run.tally.successes + 1 := hle
    _ = run.tally.succeeded + 1 := by rw [heq hphase]
    _ = _ := (how (hfresh hphase)).symm

theorem closed_of_successes_firstEpisode :
    ∃ run : CircuitRun, run.inner.phase = .halfOpen ∧ run.outstanding = 1 ∧
      twoProbes.halfOpenRequests ≤ (run.step twoProbes (.report 2 true 10)).succeeded :=
  ⟨twoProbes.breaker.run (firstEpisode ++ [.report 1 true 10]), rfl, rfl,
    closed_of_successes (Machine.reachable_run (by decide)) (by decide) rfl rfl⟩

/-- When the probe of the first episode succeeds in the second, one success of the second closes
the circuit. -/
theorem closed_of_stale :
    ∃ run, twoProbes.breaker.Reachable (fun _ _ => True) run ∧
      run.inner.phase = .halfOpen ∧
      ∃ event, (run.step twoProbes event).inner.phase = .closed ∧
        ¬ twoProbes.halfOpenRequests ≤ (run.step twoProbes event).succeeded :=
  ⟨twoProbes.breaker.run (secondEpisode ++ [.report 2 true 20]),
    Machine.reachable_run (by decide), rfl, .report 3 true 20, rfl, by decide⟩

end CircuitRun

end Pingclair
