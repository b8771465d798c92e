import Pingclair.Lib.Runs

/-!
# Ordering certificates

Calls that need a certificate for one name look in the store, claim the name, order from the issuer
and store what they get. A call that finds the name claimed waits until it is released and looks
again. No await lies between a look and the claim that follows it, so that a call which orders has
seen the store as it is.

A step of a call ends at an await, where the others may go on. A call may be dropped at any.
-/

namespace Pingclair.Issuance

/-- A certificate: when it expires, and for how long it is valid if that can be read from it, in
seconds. -/
structure Certificate where
  expiresAt : Int
  lifetime : Option Int
  deriving DecidableEq

/-- Whether issuance is on, and how much of a lifetime must remain. -/
structure Settings where
  enabled : Bool
  renewalWindow : Int → Int

def Certificate.needsRenewal (cert : Certificate) (settings : Settings) (now : Int) : Bool :=
  match cert.lifetime with
  | some lifetime =>
    if 0 < lifetime then cert.expiresAt - now < settings.renewalWindow lifetime
    else cert.expiresAt - now < 30 * 24 * 60 * 60
  | none => cert.expiresAt - now < 30 * 24 * 60 * 60

inductive AutoHttpsError
  | disabled
  | inFlight
  | notAvailable
  | slotsTaken
  | issuer
  | store
  deriving DecidableEq

def inFlightWait : Nat := 150 * 1000000000

inductive Phase
  | idle
  | entering
  /-- It found the name claimed; `woken` once the claim was released. -/
  | waiting (deadline : Nat) (woken : Bool)
  /-- Before it looks at the store again. -/
  | rejoining (deadline : Nat)
  | issuing
  | storing (cert : Certificate)
  | returned (result : Except AutoHttpsError Certificate)
  | dropped

namespace Phase

/-- Whether the call has claimed the name: it orders, or has ordered and stored nothing yet. -/
def owns : Phase → Bool
  | issuing | storing _ => true
  | _ => false

/-- A claim that is released wakes those that wait for it. -/
def wake : Phase → Phase
  | waiting deadline _ => waiting deadline true
  | phase => phase

end Phase

/-- What the calls for one name share, and where they are. -/
structure State where
  /-- The store's entry for the name, and that of the wildcard above it. -/
  exact : Option Certificate
  wildcard : Option Certificate
  processing : Bool
  calls : Nat → Phase
  /-- The wall clock in seconds, and the monotonic clock in nanoseconds. -/
  now : Int
  instant : Nat
  /-- The certificates that calls stored and that never needed renewal since. -/
  fresh : List Certificate
  /-- Whether an order was started with such a certificate there. -/
  doubled : Bool

inductive Event
  | call (i : Nat)
  | look (i : Nat) (granted : Bool)
  | resume (i : Nat)
  | issued (i : Nat) (outcome : Option Certificate)
  | stored (i : Nat) (succeeds : Bool)
  | drop (i : Nat)
  | tick (now : Int) (elapsed : Nat)

namespace State

variable (settings : Settings)

def get (s : State) : Option Certificate := s.exact.or s.wildcard

def valid (s : State) : Option Certificate :=
  s.get.filter fun cert => !cert.needsRenewal settings s.now

def move (s : State) (i : Nat) (phase : Phase) : State :=
  { s with calls := Function.update s.calls i phase }

/-- Removes the claim and wakes the calls that wait for it. -/
def release (s : State) : State :=
  { s with processing := false, calls := fun i => (s.calls i).wake }

/-- `IssuanceSlot::claim`, and behind it one of the process-wide slots for the issuer if it is
granted. A call that is declined there returns, which releases its claim. -/
def claim (s : State) (i deadline : Nat) (granted : Bool) : State :=
  if s.processing then s.move i (.waiting deadline false)
  else if granted then
    { s.move i .issuing with processing := true, doubled := s.doubled || !s.fresh.isEmpty }
  else s.move i (.returned (.error .slotsTaken))

/-- The first look: a valid certificate is the answer. -/
def lookFirst (s : State) (i : Nat) (granted : Bool) : State :=
  match s.valid settings with
  | some cert => s.move i (.returned (.ok cert))
  | none =>
    if settings.enabled then s.claim i (s.instant + inFlightWait) granted
    else s.move i (.returned (.error .disabled))

def lookAgain (s : State) (i deadline : Nat) (granted : Bool) : State :=
  match s.valid settings with
  | some cert => s.move i (.returned (.ok cert))
  | none =>
    if deadline ≤ s.instant then s.move i (.returned (.error .notAvailable))
    else s.claim i deadline granted

def look (s : State) (i : Nat) (granted : Bool) : State :=
  match s.calls i with
  | .entering => s.lookFirst settings i granted
  | .rejoining deadline => s.lookAgain settings i deadline granted
  | _ => s

def resume (s : State) (i : Nat) : State :=
  match s.calls i with
  | .waiting deadline true => s.move i (.rejoining deadline)
  | .waiting deadline false =>
    if deadline ≤ s.instant then s.move i (.returned (.error .inFlight)) else s
  | _ => s

def issued (s : State) (i : Nat) (outcome : Option Certificate) : State :=
  match s.calls i with
  | .issuing =>
    match outcome with
    | some cert => s.move i (.storing cert)
    | none => s.release.move i (.returned (.error .issuer))
  | _ => s

def stored (s : State) (i : Nat) (succeeds : Bool) : State :=
  match s.calls i with
  | .storing cert =>
    if succeeds then
      { s.release.move i (.returned (.ok cert)) with
        exact := some cert
        fresh := if cert.needsRenewal settings s.now then s.fresh else cert :: s.fresh }
    else s.release.move i (.returned (.error .store))
  | _ => s

def drop (s : State) (i : Nat) : State :=
  if (s.calls i).owns then s.release.move i .dropped else s.move i .dropped

def tick (s : State) (now : Int) (elapsed : Nat) : State :=
  { s with
    now := now
    instant := s.instant + elapsed
    fresh := s.fresh.filter fun cert => !cert.needsRenewal settings now }

def enter (s : State) (i : Nat) : State :=
  match s.calls i with
  | .idle => s.move i .entering
  | _ => s

def step (s : State) : Event → State
  | .call i => s.enter i
  | .look i granted => s.look settings i granted
  | .resume i => s.resume i
  | .issued i outcome => s.issued i outcome
  | .stored i succeeds => s.stored settings i succeeds
  | .drop i => s.drop i
  | .tick now elapsed => s.tick settings now elapsed

def start (exact wildcard : Option Certificate) (now : Int) : State where
  exact := exact
  wildcard := wildcard
  processing := false
  calls := fun _ => .idle
  now := now
  instant := 0
  fresh := []
  doubled := false

end State

def machine (settings : Settings) (exact wildcard : Option Certificate) (now : Int) :
    Machine State Event :=
  ⟨State.start exact wildcard now, State.step settings⟩

/-! ### What holds throughout -/

/-- One call has claimed the name; while it orders, no certificate is stored that stayed fresh, and
those that did are what the store answers with. -/
structure Safe (settings : Settings) (s : State) : Prop where
  sole : ∀ i j, (s.calls i).owns = true → (s.calls j).owns = true → i = j
  claimed : ∀ i, (s.calls i).owns = true → s.processing = true
  held : ∀ cert ∈ s.fresh, s.exact = some cert ∧ cert.needsRenewal settings s.now = false
  none_fresh : ∀ i, (s.calls i).owns = true → s.fresh = []
  single : s.doubled = false

section Steps

variable {settings : Settings} {s : State} {i : Nat} {phase : Phase}

@[simp] theorem Phase.owns_wake (phase : Phase) : phase.wake.owns = phase.owns := by
  cases phase <;> rfl

theorem calls_move (s : State) (i j : Nat) (phase : Phase) :
    (s.move i phase).calls j = if j = i then phase else s.calls j := by
  simp [State.move, Function.update_apply]

theorem safe_start (settings : Settings) (exact wildcard : Option Certificate) (now : Int) :
    Safe settings (State.start exact wildcard now) :=
  ⟨fun _ _ h => absurd h (by simp [State.start, Phase.owns]),
    fun _ h => absurd h (by simp [State.start, Phase.owns]),
    fun _ h => absurd h List.not_mem_nil, fun _ _ => rfl, rfl⟩

variable (h : Safe settings s)

include h

theorem Safe.eq_nil_of_valid (hv : s.valid settings = none) : s.fresh = [] := by
  rw [List.eq_nil_iff_forall_not_mem]
  intro cert hcert
  obtain ⟨hex, hfr⟩ := h.held cert hcert
  simp [State.valid, State.get, hex, hfr] at hv

/-- A call goes on without coming to own the name. -/
theorem Safe.move_of (howns : phase.owns = true → (s.calls i).owns = true) :
    Safe settings (s.move i phase) := by
  have hold : ∀ j, ((s.move i phase).calls j).owns = true → (s.calls j).owns = true := by
    intro j hj
    rw [calls_move] at hj
    split at hj
    · next heq => exact heq ▸ howns hj
    · exact hj
  exact ⟨fun j k hj hk => h.sole j k (hold j hj) (hold k hk), fun j hj => h.claimed j (hold j hj),
    h.held, fun j hj => h.none_fresh j (hold j hj), h.single⟩

theorem Safe.move (hph : phase.owns = false) : Safe settings (s.move i phase) :=
  h.move_of (by simp [hph])

/-- The call that claimed the name was the only one. -/
theorem Safe.owns_release_move (howner : (s.calls i).owns = true) (hph : phase.owns = false)
    (j : Nat) : ¬ ((s.release.move i phase).calls j).owns = true := by
  rw [calls_move]
  split
  · simp [hph]
  · next hne => exact fun hj => hne (h.sole j i (by simpa [State.release] using hj) howner)

theorem Safe.release_move (howner : (s.calls i).owns = true)
    (hph : phase.owns = false) : Safe settings (s.release.move i phase) := by
  have hnone := h.owns_release_move howner hph
  exact ⟨fun j k hj => absurd hj (hnone j), fun j hj => absurd hj (hnone j), h.held,
    fun j hj => absurd hj (hnone j), h.single⟩

/-- A call that claims a free name has just seen that the store has no valid certificate. -/
theorem Safe.claim (hv : s.valid settings = none) (deadline : Nat)
    (granted : Bool) : Safe settings (s.claim i deadline granted) := by
  rw [State.claim]
  split
  · exact h.move rfl
  · next hfree =>
    split
    · have hfr : s.fresh = [] := h.eq_nil_of_valid hv
      -- Nobody held the name before.
      have hsole : ∀ j, ((s.move i .issuing).calls j).owns = true → j = i := by
        intro j hj
        rw [calls_move] at hj
        split at hj
        · next heq => exact heq
        · exact absurd (h.claimed j hj) hfree
      exact ⟨fun j k hj hk => (hsole j hj).trans (hsole k hk).symm, fun _ _ => rfl, h.held,
        fun _ _ => hfr, by simp [h.single, hfr]⟩
    · exact h.move rfl

theorem Safe.look (granted : Bool) : Safe settings (s.look settings i granted) := by
  rw [State.look]
  split
  · rw [State.lookFirst]
    split
    · exact h.move rfl
    · next hv =>
      split
      · exact h.claim hv _ granted
      · exact h.move rfl
  · next deadline _ =>
    rw [State.lookAgain]
    split
    · exact h.move rfl
    · next hv =>
      split
      · exact h.move rfl
      · exact h.claim hv deadline granted
  · exact h

theorem Safe.resume : Safe settings (s.resume i) := by
  rw [State.resume]
  split
  · exact h.move rfl
  · split
    · exact h.move rfl
    · exact h
  · exact h

theorem Safe.issued (outcome : Option Certificate) : Safe settings (s.issued i outcome) := by
  unfold State.issued
  split
  · next hissuing =>
    have howner : (s.calls i).owns = true := by rw [hissuing]; rfl
    split
    · exact h.move_of fun _ => howner
    · exact h.release_move howner rfl
  · exact h

theorem Safe.stored (succeeds : Bool) : Safe settings (s.stored settings i succeeds) := by
  rw [State.stored]
  split
  · next cert hstoring =>
    have howner : (s.calls i).owns = true := by rw [hstoring]; rfl
    split
    · have hdone : (Phase.returned (.ok cert)).owns = false := rfl
      have hnone := h.owns_release_move howner hdone
      refine ⟨fun j k hj => absurd hj (hnone j), fun j hj => absurd hj (hnone j), ?_,
        fun j hj => absurd hj (hnone j), h.single⟩
      rw [h.none_fresh i howner]
      intro stored hmem
      split at hmem
      · exact absurd hmem List.not_mem_nil
      · next hrenew =>
        rw [List.mem_singleton.mp hmem]
        exact ⟨rfl, by simpa [State.move, State.release] using hrenew⟩
    · exact h.release_move howner rfl
  · exact h

theorem Safe.drop : Safe settings (s.drop i) := by
  rw [State.drop]
  split
  · next howner => exact h.release_move howner rfl
  · exact h.move rfl

theorem Safe.tick (now : Int) (elapsed : Nat) : Safe settings (s.tick settings now elapsed) := by
  refine ⟨h.sole, h.claimed, fun cert hcert => ?_, fun j hj => ?_, h.single⟩
  · obtain ⟨hmem, hfr⟩ := List.mem_filter.mp hcert
    exact ⟨(h.held cert hmem).1, by simpa [State.tick] using hfr⟩
  · have hni : s.fresh = [] := h.none_fresh j hj
    simp [State.tick, hni]

theorem Safe.enter : Safe settings (s.enter i) := by
  rw [State.enter]
  split
  · exact h.move rfl
  · exact h

theorem Safe.step (ev : Event) : Safe settings (s.step settings ev) := by
  cases ev with
  | call i => exact h.enter
  | look i granted => exact h.look granted
  | resume i => exact h.resume
  | issued i outcome => exact h.issued outcome
  | stored i ss => exact h.stored ss
  | drop i => exact h.drop
  | tick now elapsed => exact h.tick now elapsed

end Steps

/-- No order is started while a certificate stays fresh that a call stored, however the steps of
the calls follow one another. -/
theorem not_doubled (settings : Settings) (exact wildcard : Option Certificate) (now : Int)
    (events : List Event) : ((machine settings exact wildcard now).run events).doubled = false := by
  have h : (machine settings exact wildcard now).Reachable (fun _ _ => True)
      ((machine settings exact wildcard now).run events) :=
    Machine.reachable_run (Machine.allows_of_forall (fun _ _ => trivial) _ _)
  exact (h.invariant (I := Safe settings) (safe_start settings exact wildcard now)
    fun _ ev hsafe _ => hsafe.step ev).single

/-- The second of two calls waits for the first and takes the certificate it has stored. -/
example :
    let cert : Certificate := ⟨90 * 86400, some (90 * 86400)⟩
    let s := (machine ⟨true, (· / 3)⟩ none none 0).run [.call 0, .call 1, .look 0 true,
      .look 1 true, .issued 0 (some cert), .stored 0 true, .resume 1, .look 1 true]
    s.fresh = [cert] ∧ s.calls 1 = .returned (.ok cert) :=
  ⟨rfl, rfl⟩

end Pingclair.Issuance
