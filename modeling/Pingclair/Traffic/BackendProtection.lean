import Pingclair.Traffic.CircuitBreaker

/-!
# A protected backend

A request to a backend needs an admission of its circuit and then one of its connection slots; when
none is free the admission is dropped at once. Between the two questions, the circuit may be asked,
told and left by others.
-/

namespace Pingclair

namespace CircuitRun

variable {config : CircuitBreakerConfig} {run : CircuitRun}

/-- The probes, of all episodes, that have neither been reported nor dropped. -/
def probesOut (run : CircuitRun) : Nat := run.admissions.countP Granted.outstanding

/-- A half-open circuit counts no probe that is not out. -/
def NoLeak (run : CircuitRun) : Prop :=
  run.inner.phase = .halfOpen → run.inner.halfOpenInFlight ≤ run.probesOut

variable {inner : CircuitInner}

theorem probesOut_set {i : Nat} {gr settled : Granted} (hg : run.admissions[i]? = some gr)
    (hset : settled.outstanding = false) :
    probesOut ⟨inner, run.admissions.set i settled, run.episode⟩ +
      (if gr.outstanding then 1 else 0) = run.probesOut := by
  rw [probesOut, List.countP_set_add hg, hset]
  rfl

theorem probesOut_append {episode : Nat} (gr : Granted) :
    probesOut ⟨inner, run.admissions ++ [gr], episode⟩ =
      run.probesOut + if gr.outstanding then 1 else 0 := by
  rw [probesOut, List.countP_append, List.countP_singleton]
  rfl

/-- When a probe of a half-open circuit succeeds, one success more is counted, or the circuit is
closed. -/
theorem completeProbe_success (hph : inner.phase = .halfOpen) (now : Nat) :
    (config.completeProbe inner true now).phase = .closed ∨
      (config.completeProbe inner true now).phase = .halfOpen ∧
      (config.completeProbe inner true now).halfOpenSuccesses = inner.halfOpenSuccesses + 1 ∧
      inner.halfOpenSuccesses + 1 < config.halfOpenRequests := by
  rw [CircuitBreakerConfig.completeProbe]
  simp only [hph, ne_eq, not_true_eq_false, if_false, Bool.not_true, Bool.false_eq_true]
  split
  · exact .inl rfl
  · next hmo => exact .inr ⟨rfl, rfl, Nat.lt_of_not_ge hmo⟩

variable (h : run.NoLeak)

include h

theorem NoLeak.admitRequest (now : Nat) : (run.admitRequest config now).NoLeak := by
  rw [CircuitRun.admitRequest]
  cases hadm : config.admitRequest run.inner now with
  | none => exact h
  | some admitted =>
    obtain ⟨p, i⟩ := admitted
    intro hnx
    rw [probesOut_append]
    rcases admitRequest_cases hadm with ⟨hph, -, rfl⟩ | ⟨-, rfl, rfl⟩ | ⟨hph, rfl, -, rfl⟩
    · exact absurd (hph.symm.trans hnx) (by decide)
    · exact Nat.le_add_left _ _
    · exact Nat.add_le_add_right (h hph) 1

theorem NoLeak.report (i : Nat) (ok : Bool) (now : Nat) : (run.report config i ok now).NoLeak := by
  rcases pending_cases run i with hnone | ⟨g, hg, hdr, hrep⟩
  · rwa [report_eq_self hnone]
  · rw [report_eq hg hdr hrep]
    intro hnx
    have hout : probesOut ⟨config.complete run.inner g.probe ok now,
        run.admissions.set i (g.settle ok), run.episode⟩ + _ = _ :=
      probesOut_set hg (g.outstanding_settle ok)
    cases hprb : g.probe with
    | false =>
      rw [hprb] at hnx hout
      obtain ⟨hph, hsm⟩ := completeRequest_halfOpen hnx
      have hcomp : config.complete run.inner false ok now = run.inner := hsm
      have hn : g.outstanding = false := by simp [Granted.outstanding, hprb]
      rw [hn] at hout
      calc (config.complete run.inner false ok now).halfOpenInFlight
          = run.inner.halfOpenInFlight := by rw [hcomp]
        _ ≤ run.probesOut := h hph
        _ = _ := hout.symm
    | true =>
      rw [hprb] at hnx hout
      obtain ⟨hph, -, hin⟩ := completeProbe_halfOpen hnx
      have hop : g.outstanding = true := by
        simp [Granted.outstanding, hprb, hrep, hdr]
      rw [hop, if_pos rfl] at hout
      have hc : (config.complete run.inner true ok now).halfOpenInFlight =
          run.inner.halfOpenInFlight - 1 := congrArg CircuitInner.halfOpenInFlight hin
      have hle := h hph
      dsimp only
      omega

theorem NoLeak.drop (i : Nat) : (run.drop i).NoLeak := by
  cases hg : run.admissions[i]? with
  | none => rwa [drop_eq_self (by simp [hg])]
  | some g =>
    cases hdr : g.dropped with
    | true => rwa [drop_eq_self (by simp [hg, hdr])]
    | false =>
      rw [drop_eq hg hdr]
      intro hnx
      have hout : probesOut ⟨g.toCircuitAdmission.drop run.inner,
          run.admissions.set i g.discard, run.episode⟩ + _ = _ :=
        probesOut_set hg g.outstanding_discard
      have hop : g.outstanding = (g.probe && !g.reported) := by
        simp [Granted.outstanding, hdr]
      rw [hop] at hout
      dsimp only at hnx ⊢
      rw [CircuitAdmission.drop] at hnx hout ⊢
      cases hheld : g.probe && !g.reported with
      | false =>
        rw [hheld] at hnx hout
        exact Nat.le_trans (h hnx) (Nat.le_of_eq hout.symm)
      | true =>
        rw [hheld, if_pos rfl] at hnx hout
        have hph : run.inner.phase = .halfOpen := run.inner.phase_abandonProbe ▸ hnx
        have hle := h hph
        rw [if_pos rfl] at hout
        rw [if_pos rfl]
        have hc : run.inner.abandonProbe.halfOpenInFlight = run.inner.halfOpenInFlight - 1 := by
          rw [CircuitInner.abandonProbe, if_pos hph]
        omega

theorem NoLeak.step (ev : CircuitEvent) : (run.step config ev).NoLeak := by
  cases ev with
  | admitRequest now => exact h.admitRequest now
  | report i s now => exact h.report i s now
  | drop i => exact h.drop i

variable (hn : 1 ≤ config.halfOpenRequests) (hph : run.inner.phase = .halfOpen)

include hn hph

/-- A half-open circuit with no probe out admits the next request as a probe. -/
theorem NoLeak.admits (hidle : run.probesOut = 0) (now : Nat) :
    config.admitRequest run.inner now =
      some (true, { run.inner with halfOpenInFlight := run.inner.halfOpenInFlight + 1 }) := by
  have hle := h hph
  have hrm : ¬ config.halfOpenRequests ≤ run.inner.halfOpenInFlight := by omega
  simp [CircuitBreakerConfig.admitRequest, hph, hrm]

/-- A probe is out, or the next request is one. -/
theorem NoLeak.exists_probe :
    ∃ evs : List CircuitEvent, (evs.foldl (CircuitRun.step config) run).NoLeak ∧
      (evs.foldl (CircuitRun.step config) run).inner.phase = .halfOpen ∧
      (evs.foldl (CircuitRun.step config) run).inner.halfOpenSuccesses =
        run.inner.halfOpenSuccesses ∧
      0 < (evs.foldl (CircuitRun.step config) run).probesOut := by
  rcases Nat.eq_zero_or_pos run.probesOut with hidle | hout
  · refine ⟨[.admitRequest 0], h.step (.admitRequest 0), ?_⟩
    have hadm := h.admits hn hph hidle 0
    show (run.admitRequest config 0).inner.phase = _ ∧
      (run.admitRequest config 0).inner.halfOpenSuccesses = _ ∧
      0 < (run.admitRequest config 0).probesOut
    rw [CircuitRun.admitRequest, hadm]
    refine ⟨hph, rfl, ?_⟩
    rw [probesOut_append]
    exact Nat.lt_of_lt_of_le Nat.zero_lt_one (Nat.le_add_left _ _)
  · exact ⟨[], h, hph, rfl, hout⟩

/-- The circuit does not get stuck half-open: some further events close it. -/
theorem NoLeak.exists_closing :
    ∃ evs : List CircuitEvent, (evs.foldl (CircuitRun.step config) run).inner.phase = .closed := by
  -- Induction on the successes that are missing; each round lets one probe succeed.
  obtain ⟨missing, hmissing⟩ :
      ∃ missing, config.halfOpenRequests - run.inner.halfOpenSuccesses = missing := ⟨_, rfl⟩
  induction missing using Nat.strong_induction_on generalizing run with
  | _ missing ih =>
    obtain ⟨evs, hleak, hhalf, hsm, hp⟩ := h.exists_probe hn hph
    obtain ⟨g, hmem, hop⟩ := List.countP_pos_iff.mp hp
    obtain ⟨i, hg⟩ := List.mem_iff_getElem?.mp hmem
    obtain ⟨⟨hprb, hrep⟩, hdr⟩ : (g.probe = true ∧ g.reported = false) ∧ g.dropped = false := by
      simpa [Granted.outstanding] using hop
    have hin : (CircuitRun.report config (evs.foldl (CircuitRun.step config) run) i true 0).inner =
        config.completeProbe (evs.foldl (CircuitRun.step config) run).inner true 0 := by
      rw [report_eq hg hdr hrep, hprb]
      rfl
    have hsuccess : (config.completeProbe _ true 0).phase = _ ∨ _ := completeProbe_success hhalf 0
    rcases hsuccess with hcl | ⟨hstill, hmo, hlt⟩
    · refine ⟨evs ++ [.report i true 0], ?_⟩
      rw [List.foldl_append]
      exact (congrArg CircuitInner.phase hin).trans hcl
    · rw [← hin] at hstill hmo
      obtain ⟨rest, hrest⟩ := ih _ (by omega) (hleak.report i true 0) hstill rfl
      refine ⟨evs ++ .report i true 0 :: rest, ?_⟩
      rw [List.foldl_append]
      exact hrest

end CircuitRun

/-- A backend with all the admissions of its circuit. An admission for which no slot has been
asked yet belongs to a call that has not returned. -/
structure ProtectionRun where
  circuit : CircuitRun
  /-- The slots that are free; `none`: they are not limited. -/
  slots : Option Nat
  asking : List Nat
  permits : List Nat

/-- `admit` is two events, with those of others between them. -/
inductive ProtectionEvent where
  | admitRequest (now : Nat)
  | tryAcquire (index : Nat)
  | report (index : Nat) (success : Bool) (now : Nat)
  | drop (index : Nat)

namespace ProtectionRun

variable (config : CircuitBreakerConfig)

def admitRequest (s : ProtectionRun) (now : Nat) : ProtectionRun :=
  match config.admitRequest s.circuit.inner now with
  | none => s
  | some _ =>
    { s with
      circuit := s.circuit.admitRequest config now
      asking := s.circuit.admissions.length :: s.asking }

/-- The second half: a slot. Without one the call fails, and the admission of the circuit goes
with it. -/
def tryAcquire (s : ProtectionRun) (index : Nat) : ProtectionRun :=
  if index ∈ s.asking then
    match s.slots with
    | none => { s with asking := s.asking.erase index }
    | some 0 => { s with circuit := s.circuit.drop index, asking := s.asking.erase index }
    | some (free + 1) =>
      { s with
        slots := some free
        asking := s.asking.erase index
        permits := index :: s.permits }
  else s

def report (s : ProtectionRun) (index : Nat) (success : Bool) (now : Nat) : ProtectionRun :=
  if index ∈ s.asking then s
  else { s with circuit := s.circuit.report config index success now }

def drop (s : ProtectionRun) (index : Nat) : ProtectionRun :=
  if index ∈ s.asking then s
  else
    { s with
      circuit := s.circuit.drop index
      slots := if index ∈ s.permits then s.slots.map (· + 1) else s.slots
      permits := s.permits.erase index }

def step (s : ProtectionRun) : ProtectionEvent → ProtectionRun
  | .admitRequest now => s.admitRequest config now
  | .tryAcquire index => s.tryAcquire index
  | .report index success now => s.report config index success now
  | .drop index => s.drop index

end ProtectionRun

def CircuitBreakerConfig.protection (config : CircuitBreakerConfig) (maxConnections : Option Nat) :
    Machine ProtectionRun ProtectionEvent where
  start := ⟨config.breaker.start, maxConnections, [], []⟩
  step := ProtectionRun.step config

namespace ProtectionRun

variable {config : CircuitBreakerConfig} {maxConnections : Option Nat} {s : ProtectionRun}

theorem circuit_step (s : ProtectionRun) (ev : ProtectionEvent) :
    (s.step config ev).circuit = s.circuit ∨
      ∃ move, (s.step config ev).circuit = s.circuit.step config move := by
  cases ev with
  | admitRequest now =>
    show (s.admitRequest config now).circuit = _ ∨ _
    rw [step, admitRequest]
    split
    · exact .inl rfl
    · exact .inr ⟨.admitRequest now, rfl⟩
  | tryAcquire i =>
    show (s.tryAcquire i).circuit = _ ∨ _
    rw [step, tryAcquire]
    split
    · split
      · exact .inl rfl
      · exact .inr ⟨.drop i, rfl⟩
      · exact .inl rfl
    · exact .inl rfl
  | report i sc now =>
    show (s.report config i sc now).circuit = _ ∨ _
    rw [step, report]
    split
    · exact .inl rfl
    · exact .inr ⟨.report i sc now, rfl⟩
  | drop i =>
    show (s.drop i).circuit = _ ∨ _
    rw [step, drop]
    split
    · exact .inl rfl
    · exact .inr ⟨.drop i, rfl⟩

/-- What the slots do to the circuit is a run of the circuit. -/
theorem circuit_reachable (h : (config.protection maxConnections).Reachable (fun _ _ => True) s) :
    config.breaker.Reachable (fun _ _ => True) s.circuit := by
  refine h.invariant (I := fun s => config.breaker.Reachable (fun _ _ => True) s.circuit) ?_ ?_
  · exact .start
  · intro s e hs _
    rcases s.circuit_step e with hsm | ⟨move, hmv⟩
    · exact hsm.symm ▸ hs
    · exact hmv.symm ▸ hs.step trivial

end ProtectionRun

/-- In every run of a protected backend, refused slots included, a half-open circuit counts no
more probes in flight than are out; with none out the next request is admitted as a probe; and
some further events close the circuit. -/
theorem slots_not_leaked {config : CircuitBreakerConfig} (hn : 1 ≤ config.halfOpenRequests)
    {maxConnections : Option Nat} {s : ProtectionRun}
    (h : (config.protection maxConnections).Reachable (fun _ _ => True) s)
    (hphase : s.circuit.inner.phase = .halfOpen) :
    s.circuit.inner.halfOpenInFlight ≤ s.circuit.probesOut ∧
      (s.circuit.probesOut = 0 → ∀ now, ∃ inner,
        config.admitRequest s.circuit.inner now = some (true, inner)) ∧
      ∃ events : List CircuitEvent,
        (events.foldl (CircuitRun.step config) s.circuit).inner.phase = .closed := by
  have hleak : s.circuit.NoLeak := by
    refine (ProtectionRun.circuit_reachable h).invariant ?_ fun run e hrun _ => hrun.step e
    intro hst
    cases hst
  exact ⟨hleak hphase, fun hidle now => ⟨_, hleak.admits hn hphase hidle now⟩,
    hleak.exists_closing hn hphase⟩

/-- With one slot: the first request fails and opens the circuit, a probe at 10 takes the slot,
and a second probe gets none. -/
def refusedSlot : List ProtectionEvent :=
  [.admitRequest 0, .tryAcquire 0, .report 0 false 0, .drop 0, .admitRequest 10, .tryAcquire 1,
    .admitRequest 10, .tryAcquire 2]

theorem slots_not_leaked_refusedSlot :
    ∃ s : ProtectionRun, s.circuit.inner.phase = .halfOpen ∧
      s.circuit.admissions.length = 3 ∧ s.circuit.probesOut = 1 ∧
      s.circuit.inner.halfOpenInFlight ≤ s.circuit.probesOut ∧
      ∃ events : List CircuitEvent,
        (events.foldl (CircuitRun.step CircuitRun.twoProbes) s.circuit).inner.phase = .closed := by
  have hn : 1 ≤ CircuitRun.twoProbes.halfOpenRequests := by decide
  have hrc : (CircuitRun.twoProbes.protection (some 1)).Reachable (fun _ _ => True)
      ((CircuitRun.twoProbes.protection (some 1)).run refusedSlot) :=
    Machine.reachable_run (Machine.allows_of_forall (fun _ _ => trivial) _ _)
  have h := slots_not_leaked hn hrc rfl
  exact ⟨_, rfl, rfl, rfl, h.1, h.2.2⟩

end Pingclair
