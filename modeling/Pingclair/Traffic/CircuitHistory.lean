import Mathlib.Data.List.DropRight
import Pingclair.Traffic.CircuitBreaker

/-!
# What opens a circuit

The rule that opens a circuit is stated over a history: the outcomes that requests other than probes
reported to the closed circuit since it was last closed. The queue of outcomes is emptied when the
circuit closes and not when it opens, so until then it still holds the end of the history.
-/

theorem List.replicate_suffix_iff {α : Type*} [DecidableEq α] (a : α) (n : Nat) (l : List α) :
    replicate n a <:+ l ↔ n ≤ (l.rtakeWhile (· == a)).length := by
  induction l using reverseRecOn generalizing n with
  | nil => simp
  | append_singleton l x ih =>
    cases n with
    | zero => simp
    | succ n =>
      rw [replicate_succ', suffix_concat_iff]
      by_cases hx : x = a
      · subst hx
        simp [ih]
      · simp [hx, Ne.symm hx]

theorem List.rtake_concat {α : Type*} (l : List α) (a : α) (n : Nat) :
    (l ++ [a]).rtake n =
      if n < (l.rtake n ++ [a]).length then (l.rtake n ++ [a]).tail else l.rtake n ++ [a] := by
  simp only [rtake, length_append, length_singleton, length_drop]
  split
  · next hfull =>
    have hshift : l.length + 1 - n = (l.length - n) + 1 := by omega
    rw [hshift, ← drop_append_of_le_length (by omega), tail_drop]
  · next hrm =>
    have ha : l.length + 1 - n = 0 := by omega
    have hnone : l.length - n = 0 := by omega
    rw [ha, hnone]
    rfl

namespace Pingclair

namespace CircuitBreakerConfig

variable (config : CircuitBreakerConfig)

def window (history : List Bool) : List Bool := history.rtake config.windowRequests

/-- A history that opens the circuit: it ends in so many failures, or so many in a hundred of
its window are failures. -/
def OpensOn (history : List Bool) : Prop :=
  (∃ threshold ∈ config.consecutiveFailures, List.replicate threshold false <:+ history) ∨
    ∃ percent ∈ config.errorRatePercent, config.minimumRequests ≤ (config.window history).length ∧
        percent * (config.window history).length ≤ 100 * (config.window history).count false

def failuresInRow (history : List Bool) : Nat := (history.rtakeWhile (· == false)).length

/-- The evidence that a circuit keeps of a history. -/
structure Keeps (history : List Bool) (inner : CircuitInner) : Prop where
  outcomes : inner.outcomes = config.window history
  consecutiveFailures : inner.consecutiveFailures = min (failuresInRow history) u32Max

variable {config} {history : List Bool} {inner : CircuitInner}

theorem length_window_le (history : List Bool) :
    (config.window history).length ≤ config.windowRequests := by
  rw [window, List.rtake, List.length_drop]
  omega

theorem keeps_nil (houts : inner.outcomes = []) (hfs : inner.consecutiveFailures = 0) :
    config.Keeps [] inner :=
  ⟨houts.trans (List.rtake_nil _).symm, hfs⟩

theorem Keeps.recordOutcome (h : config.Keeps history inner) (ok : Bool) :
    config.Keeps (history ++ [ok]) (config.recordOutcome inner ok) where
  outcomes := by
    rw [window, List.rtake_concat]
    simp [CircuitBreakerConfig.recordOutcome, h.outcomes, window]
  consecutiveFailures := by
    simp only [CircuitBreakerConfig.recordOutcome, failuresInRow, List.rtakeWhile_concat,
      h.consecutiveFailures]
    cases ok with
    | true => rfl
    | false =>
      simp only [Bool.false_eq_true, if_false, BEq.rfl, if_true, List.length_append,
        List.length_singleton]
      omega

/-- The saturated counter decides every threshold that fits its type. -/
theorem Keeps.failing_iff (h : config.Keeps history inner)
    (hbd : ∀ threshold ∈ config.consecutiveFailures, threshold ≤ u32Max) :
    config.failing inner = true ↔ config.OpensOn history := by
  have hrow (threshold : Nat) (hthreshold : threshold ∈ config.consecutiveFailures) :
      inner.consecutiveFailures ≥ threshold ↔ List.replicate threshold false <:+ history := by
    have hft := hbd threshold hthreshold
    rw [h.consecutiveFailures, List.replicate_suffix_iff, failuresInRow]
    omega
  have hc (outcomes : List Bool) : outcomes.countP (!·) = outcomes.count false := by
    congr 1
    funext success
    cases success <;> rfl
  have hratio (percent : Nat) :
      (inner.outcomes.length ≥ config.minimumRequests &&
        inner.outcomes.countP (!·) * 100 ≥ percent * inner.outcomes.length) = true ↔
      config.minimumRequests ≤ (config.window history).length ∧
        percent * (config.window history).length ≤ 100 * (config.window history).count false := by
    rw [hc, h.outcomes, Bool.and_eq_true, decide_eq_true_iff, decide_eq_true_iff,
      Nat.mul_comm _ 100]
  rw [failing, Bool.or_eq_true]
  apply or_congr
  · cases hset : config.consecutiveFailures with
    | none => simp
    | some threshold => simpa using hrow threshold hset
  · cases config.errorRatePercent with
    | none => simp
    | some percent => simpa using hratio percent

/-- An outcome reported to the closed circuit is recorded, and opens it when the rule says so. -/
theorem Keeps.completeRequest (h : config.Keeps history inner)
    (hbd : ∀ threshold ∈ config.consecutiveFailures, threshold ≤ u32Max)
    (hph : inner.phase = .closed) (ok : Bool) (now : Nat) :
    config.Keeps (history ++ [ok]) (config.completeRequest inner ok now) ∧
      ((config.completeRequest inner ok now).phase = .closed ∨
        (config.completeRequest inner ok now).phase = .opened) ∧
      ((config.completeRequest inner ok now).phase = .opened ↔
        config.OpensOn (history ++ [ok])) := by
  have hkp := h.recordOutcome ok
  have hfailing := hkp.failing_iff hbd
  have hrec : (config.recordOutcome inner ok).phase = .closed := hph
  rw [CircuitBreakerConfig.completeRequest, if_neg (not_not.mpr hph)]
  dsimp only
  split
  · next hfails =>
    exact ⟨⟨hkp.outcomes, hkp.consecutiveFailures⟩, .inr rfl,
      fun _ => hfailing.mp hfails, fun _ => rfl⟩
  · next hhl =>
    refine ⟨hkp, .inl hrec, fun hop => ?_, fun hopens => ?_⟩
    · exact absurd (hrec.symm.trans hop) (by decide)
    · exact absurd (hfailing.mpr hopens) hhl

end CircuitBreakerConfig

namespace CircuitRun

variable {config : CircuitBreakerConfig} {run : CircuitRun}

/-- Whether an event is the first report of an admission that is no probe. -/
def reportsRequest (run : CircuitRun) (index : Nat) : Bool :=
  run.admissions[index]?.any fun granted =>
    !granted.probe && !granted.reported && !granted.dropped

/-- The outcome that an event reports to the closed circuit, of a request that is no probe. -/
def outcome (run : CircuitRun) : CircuitEvent → Option Bool
  | .report index success _ =>
    if run.inner.phase = .closed ∧ run.reportsRequest index then some success else none
  | _ => none

/-- What one event does to the evidence of a circuit. -/
inductive EvidenceStep (config : CircuitBreakerConfig) (inner next : CircuitInner) :
    Option Bool → Prop
  | recorded (success : Bool) (now : Nat) : inner.phase = .closed →
      next = config.completeRequest inner success now →
      EvidenceStep config inner next (some success)
  | closes : inner.phase ≠ .closed → next.phase = .closed → next.outcomes = [] →
      next.consecutiveFailures = 0 → EvidenceStep config inner next none
  /-- Neither: the evidence stays. -/
  | stays : (inner.phase = .closed ↔ next.phase = .closed) → next.outcomes = inner.outcomes →
      next.consecutiveFailures = inner.consecutiveFailures → EvidenceStep config inner next none

theorem EvidenceStep.refl (inner : CircuitInner) : EvidenceStep config inner inner none :=
  .stays Iff.rfl rfl rfl

theorem admitRequest_evidence (now : Nat) :
    EvidenceStep config run.inner (run.admitRequest config now).inner none := by
  rw [admitRequest]
  cases hadm : config.admitRequest run.inner now with
  | none => exact .refl _
  | some admitted =>
    obtain ⟨p, inner⟩ := admitted
    show EvidenceStep config run.inner inner none
    rcases admitRequest_cases hadm with ⟨-, -, rfl⟩ | ⟨hph, -, rfl⟩ | ⟨hph, -, -, rfl⟩
    · exact .refl _
    · exact .stays (by simp [hph]) rfl rfl
    · exact .stays (by simp [hph]) rfl rfl

theorem completeProbe_evidence (inner : CircuitInner) (ok : Bool) (now : Nat) :
    EvidenceStep config inner (config.completeProbe inner ok now) none := by
  rw [CircuitBreakerConfig.completeProbe]
  dsimp only
  split
  · exact .stays Iff.rfl rfl rfl
  · next hhalf =>
    have hph : inner.phase = .halfOpen := not_not.mp hhalf
    split
    · exact .stays (by simp [hph, CircuitBreakerConfig.trip]) rfl rfl
    · split
      · exact .closes (by simp [hph]) rfl rfl rfl
      · exact .stays Iff.rfl rfl rfl

theorem report_evidence (i : Nat) (ok : Bool) (now : Nat) :
    EvidenceStep config run.inner (run.report config i ok now).inner
      (run.outcome (.report i ok now)) := by
  rcases pending_cases run i with hnone | ⟨g, hg, hdr, hrep⟩
  · have hn : run.reportsRequest i = false := by
      rw [reportsRequest]
      cases hg : run.admissions[i]? with
      | none => rfl
      | some g =>
        rcases hnone g hg with hdr | hrep
        · simp [hdr]
        · simp [hrep]
    rw [report_eq_self hnone, outcome, if_neg (by simp [hn])]
    exact .refl _
  · rw [report_eq hg hdr hrep]
    have hreports : run.reportsRequest i = !g.probe := by
      simp [reportsRequest, hg, hdr, hrep]
    rw [outcome, hreports]
    cases g.probe with
    | true =>
      rw [if_neg (by simp)]
      exact completeProbe_evidence _ _ _
    | false =>
      show EvidenceStep config run.inner (config.completeRequest run.inner ok now) _
      by_cases hph : run.inner.phase = .closed
      · rw [if_pos ⟨hph, rfl⟩]
        exact .recorded ok now hph rfl
      · rw [if_neg (fun h => hph h.1), CircuitBreakerConfig.completeRequest, if_pos hph]
        exact .refl _

theorem drop_evidence (i : Nat) : EvidenceStep config run.inner (run.drop i).inner none := by
  have habandon : EvidenceStep config run.inner run.inner.abandonProbe none := by
    rw [CircuitInner.abandonProbe]
    split
    · exact .stays Iff.rfl rfl rfl
    · exact .refl _
  rw [drop]
  split
  · exact .refl _
  · split
    · exact .refl _
    · rw [CircuitAdmission.drop]
      split
      · exact habandon
      · exact .refl _

theorem step_evidence (config : CircuitBreakerConfig) (run : CircuitRun) (ev : CircuitEvent) :
    EvidenceStep config run.inner (run.step config ev).inner (run.outcome ev) := by
  cases ev with
  | admitRequest now => exact admitRequest_evidence now
  | report i s now => exact report_evidence i s now
  | drop i => exact drop_evidence i

end CircuitRun

/-- A circuit, and the outcomes reported to it while closed since it was last closed. -/
structure RecordedRun where
  run : CircuitRun
  history : List Bool

/-- The history begins anew when the circuit closes. -/
def RecordedRun.step (config : CircuitBreakerConfig) (s : RecordedRun) (event : CircuitEvent) :
    RecordedRun where
  run := s.run.step config event
  history :=
    if s.run.inner.phase ≠ .closed ∧ (s.run.step config event).inner.phase = .closed then []
    else s.history ++ (s.run.outcome event).toList

/-- The breaker with its history, under any interleaving of requests. -/
def CircuitBreakerConfig.recorded (config : CircuitBreakerConfig) :
    Machine RecordedRun CircuitEvent where
  start := ⟨config.breaker.start, []⟩
  step := RecordedRun.step config

variable {config : CircuitBreakerConfig} {s : RecordedRun}

/-- The evidence follows the history in every step. -/
theorem CircuitBreakerConfig.Keeps.step (h : config.Keeps s.history s.run.inner)
    (hbd : ∀ threshold ∈ config.consecutiveFailures, threshold ≤ u32Max) (ev : CircuitEvent) :
    config.Keeps (s.step config ev).history (s.step config ev).run.inner := by
  have hev := CircuitRun.step_evidence config s.run ev
  rw [RecordedRun.step]
  generalize s.run.outcome ev = outcome at hev
  cases hev with
  | recorded sc now hph hnx =>
    rw [if_neg (fun hboth => hboth.1 hph), hnx]
    exact (h.completeRequest hbd hph sc now).1
  | closes hph hcl houts hfs =>
    rw [if_pos ⟨hph, hcl⟩]
    exact CircuitBreakerConfig.keeps_nil houts hfs
  | stays hsm houts hfs =>
    rw [if_neg (fun hboth => hboth.1 (hsm.mpr hboth.2)), Option.toList_none, List.append_nil]
    exact ⟨houts.trans h.outcomes, hfs.trans h.consecutiveFailures⟩

/-- In every state of every run the queue of outcomes is the end of the history, and no longer
than the window; and an event opens the closed circuit exactly when it reports an outcome with
which the history is one that opens it. -/
theorem opens_iff_opensOn (hbound : ∀ threshold ∈ config.consecutiveFailures, threshold ≤ u32Max)
    (h : config.recorded.Reachable (fun _ _ => True) s) :
    s.run.inner.outcomes = config.window s.history ∧
      s.run.inner.outcomes.length ≤ config.windowRequests ∧
      (s.run.inner.phase = .closed → ∀ event, (s.run.step config event).inner.phase = .opened ↔
          ∃ success ∈ s.run.outcome event, config.OpensOn (s.history ++ [success])) := by
  have hkp : config.Keeps s.history s.run.inner := by
    refine h.invariant (I := fun s => config.Keeps s.history s.run.inner) ?_ ?_
    · exact CircuitBreakerConfig.keeps_nil rfl rfl
    · intro s event hs _
      exact hs.step hbound event
  refine ⟨hkp.outcomes, ?_, fun hph event => ?_⟩
  · rw [hkp.outcomes]
    exact CircuitBreakerConfig.length_window_le _
  · have hev := CircuitRun.step_evidence config s.run event
    generalize s.run.outcome event = outcome at hev
    cases hev with
    | recorded success now _ hnx =>
      rw [hnx, (hkp.completeRequest hbound hph success now).2.2]
      simp
    | closes hop => exact absurd hph hop
    | stays hsm =>
      have hcl := hsm.mp hph
      simp [hcl]

def halfFailed : CircuitBreakerConfig where
  consecutiveFailures := some 3
  errorRatePercent := some 50
  minimumRequests := 2
  windowRequests := 3
  openDurationMs := 10
  halfOpenRequests := 1
  failureStatuses := []

/-- Five requests: three succeed, the fourth fails and the last has not been heard of. -/
def threeSuccesses : List CircuitEvent :=
  [.admitRequest 0, .admitRequest 0, .admitRequest 0, .admitRequest 0, .admitRequest 0,
    .report 0 true 1, .report 1 true 2, .report 2 true 3, .report 3 false 4]

theorem opens_iff_opensOn_threeSuccesses :
    ∃ s : RecordedRun, s.history = [true, true, true, false] ∧
      s.run.inner.outcomes = halfFailed.window s.history ∧
      s.run.inner.outcomes = [true, true, false] ∧
      halfFailed.OpensOn (s.history ++ [false]) := by
  have hbd : ∀ t ∈ halfFailed.consecutiveFailures, t ≤ u32Max := by
    rintro t ⟨⟩
    decide
  have hrc : halfFailed.recorded.Reachable (fun _ _ => True)
      (halfFailed.recorded.run threeSuccesses) :=
    Machine.reachable_run (Machine.allows_of_forall (fun _ _ => trivial) _ _)
  obtain ⟨houts, -, hopens⟩ := opens_iff_opensOn hbd hrc
  obtain ⟨success, hrep, hru⟩ := (hopens rfl (.report 4 false 5)).mp rfl
  obtain rfl : false = success := Option.some.inj hrep
  exact ⟨_, rfl, houts, rfl, hru⟩

end Pingclair
