import Pingclair.Lib.ByteText
import Pingclair.Lib.Runs

/-!
# Retries

An attempt that fails may be followed by another, as long as the retry policy allows for more and
its deadline is not reached. Once a connection was made, only a request that can be sent twice
without harm is sent again. An error route's proxy takes a request over with a policy of its own.

Over HTTP/1 and HTTP/2 callbacks decide, which do not count an address from a template; over HTTP/3
one loop does. It takes a TLS connection without the protocol it asked for as one that failed.
-/

namespace Pingclair.Retries

open ByteText Option

structure Answer where
  status : Nat
  field : Bytes → Option Bytes

def millis (n : Nat) : Nat := 1000000 * n

/-- A retry policy. `retryMatch` is what each of its predicates says of an answer to the request. -/
structure RetryConfig where
  maxAttempts : Nat
  totalTimeoutMs : Option Nat
  backoffMs : Nat
  retryMatch : List (Answer → Bool)

namespace RetryConfig

variable (policy : RetryConfig)

def deadline (started : Nat) : Option Nat :=
  policy.totalTimeoutMs.map fun timeout => started + millis timeout

def backoff : Nat := millis policy.backoffMs

/-- Whether there is an attempt left, and time for the pause before it. -/
def permitsAnotherAttempt (attempts : Nat) (deadline : Option Nat) (now : Nat) : Bool :=
  attempts < policy.maxAttempts && deadline.all (now + policy.backoff < ·)

end RetryConfig

def methodIsIdempotent (method : Bytes) : Bool :=
  [ascii "GET", ascii "HEAD", ascii "OPTIONS", ascii "TRACE", ascii "PUT", ascii "DELETE"].contains
    method

def requestIsRepeatable (method : Bytes) (bodyIsEmpty : Bool) : Bool :=
  bodyIsEmpty && methodIsIdempotent method

def permitsRetry (policy : RetryConfig) (answer : Answer) (method : Bytes) (bodyIsEmpty : Bool)
    (attempts : Nat) (deadline : Option Nat) (now : Nat) : Bool :=
  requestIsRepeatable method bodyIsEmpty && policy.permitsAnotherAttempt attempts deadline now &&
    !policy.retryMatch.isEmpty && policy.retryMatch.any (· answer)

/-! ### Requests -/

inductive Transport
  | http12
  | http3
  deriving DecidableEq

/-- How a proxy finds its upstream: from a pool, or from a template. -/
inductive Dial
  | balanced
  | templated
  deriving DecidableEq

structure ProxyConfig where
  retry : RetryConfig
  dial : Dial
  rewriteMethod : Option Bytes
  /-- An upstream of the proxy is to be spoken to in HTTP/2 over TLS, and in nothing else. -/
  requiresH2 : Bool

/-- A request at a site, with the proxy of its route and those of the error routes. -/
structure Exchange where
  transport : Transport
  method : Bytes
  bodyIsEmpty : Bool
  started : Nat
  proxy : ProxyConfig
  errorProxy : Nat → Option ProxyConfig

/-- An attempt that was dispatched, and whether its connection was made. -/
structure Attempt where
  start : Nat
  connected : Bool
  deriving DecidableEq

inductive Phase
  | waiting
  | connecting
  | exchanging
  | relaying
  | done
  deriving DecidableEq

/-- The context of a request, or the variables of the loop. `log` are the attempts that were
dispatched to the present proxy, the latest first, `before` those to an earlier one. -/
structure State where
  proxy : ProxyConfig
  handlingError : Bool
  attempts : Nat
  deadline : Option Nat
  pending : Bool
  phase : Phase
  clock : Nat
  log : List Attempt
  before : List (ProxyConfig × List Attempt)

/-- Whether an error may be retried, or only if the connection was used before. -/
inductive RetryType
  | decided (retry : Bool)
  | reusedOnly

/-- What an error says once it is known whether the connection was used before. -/
def RetryType.decideReuse (reused : Bool) : RetryType → Bool
  | .decided retry => retry
  | .reusedOnly => reused

/-- What happens to an attempt. An upstream is looked for, found or not, with the request's own
deadline reached or not; the connection fails, or is made, with the protocol that is asked for or
without it; an answer comes, or the exchange breaks. -/
inductive Event
  | peer (checked : Nat) (found inTime : Bool)
  | refused (now : Nat)
  | connected
  | mismatched (now : Nat)
  | answered (now decided : Nat) (answer : Answer)
  | broken (now : Nat) (error : RetryType) (clientReused bufferTruncated : Bool)

namespace Exchange

variable (x : Exchange)

/-- The method that goes out. The callbacks rewrite the request once, for the proxy of the route;
the loop starts from the client's method for each proxy. -/
def upstreamMethod (proxy : ProxyConfig) : Bytes :=
  match x.transport with
  | .http12 => x.proxy.rewriteMethod.getD x.method
  | .http3 => proxy.rewriteMethod.getD x.method

/-- Whether a proxy may be sent the request twice. -/
def isRepeatable (proxy : ProxyConfig) : Bool :=
  requestIsRepeatable (x.upstreamMethod proxy) x.bodyIsEmpty

def counts (proxy : ProxyConfig) : Bool := x.transport = .http3 || proxy.dial = .balanced

def pause (s : State) : Nat :=
  match x.transport with
  | .http12 => if s.pending then s.proxy.retry.backoff else 0
  | .http3 => if 0 < s.attempts then s.proxy.retry.backoff else 0

def dispatch (s : State) : State :=
  { s with phase := .connecting, log := ⟨s.clock, false⟩ :: s.log }

/-- The deadline that the next attempt is checked against. -/
def deadlineFor (s : State) : Option Nat :=
  match x.transport with
  | .http12 => if s.attempts = 0 then s.proxy.retry.deadline x.started else s.deadline
  | .http3 => s.deadline

/-- Looks for an upstream, unless the deadline is reached. -/
def upstreamPeer (s : State) (checked : Nat) (found inTime : Bool) : State :=
  let s := { s with deadline := x.deadlineFor s, pending := false, clock := checked }
  if s.deadline.any (· ≤ checked) || !found then { s with phase := .done }
  else if x.counts s.proxy then
    let s := { s with attempts := s.attempts + 1 }
    if inTime then dispatch s else { s with phase := .done }
  else dispatch s

/-- Goes on with another attempt or not. -/
def settle (s : State) (now : Nat) (retry : Bool) : State :=
  { s with pending := retry, clock := now, phase := if retry then .waiting else .done }

def failToConnect (s : State) (now : Nat) : State :=
  settle s now (s.proxy.retry.permitsAnotherAttempt s.attempts s.deadline now)

def connect (s : State) : State :=
  { s with
    phase := .exchanging
    log := (s.log.head?.map fun a => { a with connected := true }).toList ++ s.log.tail }

/-- What the error callback makes of an error behind a connection. -/
def errorWhileProxy (s : State) (now : Nat) (retryable : Bool) : State :=
  settle s now (x.isRepeatable s.proxy &&
    s.proxy.retry.permitsAnotherAttempt s.attempts s.deadline now && retryable)

/-- A connection was made without the protocol that is asked for. The callbacks make an error of it
that is not retried. -/
def rejectAlpn (s : State) (now : Nat) : State :=
  match x.transport with
  | .http12 => x.errorWhileProxy (connect s) now false
  | .http3 => failToConnect (connect s) now

/-- Hands the request over to another proxy, which starts with a count of its own. -/
def handOver (s : State) (now : Nat) (proxy : ProxyConfig) : State :=
  { proxy
    handlingError := true
    attempts := 0
    deadline := match x.transport with
      | .http12 => none
      | .http3 => proxy.retry.deadline x.started
    pending := false
    phase := .waiting
    clock := now
    log := []
    before := (s.proxy, s.log) :: s.before }

/-- The proxy that an answer is handed over to. -/
def errorProxyFor (s : State) (answer : Answer) : Option ProxyConfig :=
  if !s.handlingError && 500 ≤ answer.status && answer.status ≤ 599 then
    x.errorProxy answer.status
  else none

def isInterim (answer : Answer) : Bool :=
  100 ≤ answer.status && answer.status ≤ 199 && answer.status != 101

def permits (s : State) (now : Nat) (answer : Answer) : Bool :=
  permitsRetry s.proxy.retry answer (x.upstreamMethod s.proxy) x.bodyIsEmpty s.attempts s.deadline
    now

/-- An answer over HTTP/1 or HTTP/2. An error route comes first; a retry is an error that the error
callback looks at once more. -/
def upstreamResponseFilter (s : State) (now decided : Nat) (answer : Answer) : State :=
  match x.errorProxyFor s answer with
  | some proxy => x.handOver s now proxy
  | none =>
    if isInterim answer then { s with clock := now }
    else if x.permits s now answer then x.errorWhileProxy s decided true
    else { s with phase := .relaying, clock := now }

/-- An answer over HTTP/3. A retry comes first. -/
def answeredHttp3 (s : State) (now : Nat) (answer : Answer) : State :=
  if isInterim answer then { s with clock := now }
  else if answer.status = 101 then { s with phase := .done, clock := now }
  else if x.permits s now answer then { s with phase := .waiting, clock := now }
  else
    match x.errorProxyFor s answer with
    | some proxy => x.handOver s now proxy
    | none => { s with phase := .relaying, clock := now }

/-- An error behind a connection ends the exchange over HTTP/3. -/
def broken (s : State) (now : Nat) (retryable : Bool) : State :=
  match x.transport with
  | .http12 => x.errorWhileProxy s now retryable
  | .http3 => { s with phase := .done, clock := now }

def step (s : State) : Event → State
  | .peer checked found inTime =>
    if s.phase = .waiting then x.upstreamPeer s checked found inTime else s
  | .refused now => if s.phase = .connecting then failToConnect s now else s
  | .connected => if s.phase = .connecting then connect s else s
  | .mismatched now =>
    if s.phase = .connecting ∧ s.proxy.requiresH2 = true then x.rejectAlpn s now else s
  | .answered now decided answer =>
    if s.phase = .exchanging then
      match x.transport with
      | .http12 => x.upstreamResponseFilter s now decided answer
      | .http3 => x.answeredHttp3 s now answer
    else s
  | .broken now error clientReused bufferTruncated =>
    if s.phase = .exchanging ∨ s.phase = .relaying then
      x.broken s now (error.decideReuse (clientReused && !bufferTruncated))
    else s

def machine : Machine State Event where
  start :=
    { proxy := x.proxy
      handlingError := false
      attempts := 0
      deadline := match x.transport with
        | .http12 => none
        | .http3 => x.proxy.retry.deadline x.started
      pending := false
      phase := .waiting
      clock := x.started
      log := []
      before := [] }
  step := x.step

/-- The clock does not run back, and a pause takes its time. -/
def Ticks (s : State) : Event → Prop
  | .peer checked _ _ => s.clock + x.pause s ≤ checked
  | .refused now | .mismatched now => s.clock ≤ now
  | .connected => True
  | .answered now decided _ => s.clock ≤ now ∧ now ≤ decided
  | .broken now _ _ _ => s.clock ≤ now

instance Ticks.decidable (s : State) : ∀ e, Decidable (x.Ticks s e)
  | .peer checked _ _ => inferInstanceAs (Decidable (s.clock + x.pause s ≤ checked))
  | .refused now | .mismatched now => inferInstanceAs (Decidable (s.clock ≤ now))
  | .connected => inferInstanceAs (Decidable True)
  | .answered now decided _ => inferInstanceAs (Decidable (s.clock ≤ now ∧ now ≤ decided))
  | .broken now _ _ _ => inferInstanceAs (Decidable (s.clock ≤ now))

/-- The attempts to one proxy are no more than its policy says, none is at the deadline or behind
it, and if the request may not be repeated, none follows one whose connection was made. -/
structure Bounded (proxy : ProxyConfig) (log : List Attempt) : Prop where
  count : log.length ≤ proxy.retry.maxAttempts
  deadline : ∀ a ∈ log, ∀ d ∈ proxy.retry.deadline x.started, a.start < d
  once : x.isRepeatable proxy = false → ∀ a ∈ log.tail, a.connected = false

def Fine (s : State) : Prop :=
  x.Bounded s.proxy s.log ∧ ∀ leg ∈ s.before, x.Bounded leg.1 leg.2

/-- A template is dialled over HTTP/1 or HTTP/2, and the pauses leave time for one attempt more than
the policy says. -/
def Overruns (proxy : ProxyConfig) : Prop :=
  x.counts proxy = false ∧ ∀ t ∈ proxy.retry.totalTimeoutMs,
    proxy.retry.maxAttempts * proxy.retry.backoff < millis t

/-- Over HTTP/3 a request that may not be repeated goes to an upstream for HTTP/2 over TLS, and the
policy has a second attempt and time for the pause before it. -/
def Mismatches (proxy : ProxyConfig) : Prop :=
  x.transport = .http3 ∧ proxy.requiresH2 = true ∧ x.isRepeatable proxy = false ∧
    1 < proxy.retry.maxAttempts ∧ ∀ t ∈ proxy.retry.totalTimeoutMs,
      proxy.retry.backoff < millis t

def Slips (proxy : ProxyConfig) : Prop := x.Overruns proxy ∨ x.Mismatches proxy

/-! ### Invariant -/

variable {x} {s : State}

structure Kept (x : Exchange) (s : State) : Prop where
  before : ∀ leg ∈ s.before, x.Bounded leg.1 leg.2
  route : s.handlingError = false → s.proxy = x.proxy
  positive : 0 < s.proxy.retry.maxAttempts
  within : ¬ x.Slips s.proxy
  began : x.started ≤ s.clock
  current : x.deadlineFor s = s.proxy.retry.deadline x.started
  dispatched : s.phase = .connecting ∨ s.phase = .exchanging → s.log ≠ []
  starts : ∀ a ∈ s.log, x.started ≤ a.start ∧ ∀ d ∈ s.proxy.retry.deadline x.started, a.start < d
  once : x.isRepeatable s.proxy = false → ∀ a ∈ s.log.tail, a.connected = false
  unconnected : x.isRepeatable s.proxy = false → s.phase = .waiting ∨ s.phase = .connecting →
    ∀ a ∈ s.log, a.connected = false
  size : s.log.length ≤ s.proxy.retry.maxAttempts
  counted : x.counts s.proxy = true → s.log.length ≤ s.attempts ∧
    (s.phase = .waiting → s.attempts < s.proxy.retry.maxAttempts)
  uncounted : x.counts s.proxy = false → s.attempts = 0 ∧
    x.started + s.log.length * s.proxy.retry.backoff ≤ s.clock + s.proxy.retry.backoff ∧
    (s.phase = .waiting → x.started + s.log.length * s.proxy.retry.backoff ≤ s.clock + x.pause s)

/-- What the configuration has to say for the bounds to hold: no proxy that is reached slips. -/
structure Within (x : Exchange) : Prop where
  route : ¬ x.Slips x.proxy
  error : x.proxy.retry.totalTimeoutMs ≠ some 0 → ∀ status, 500 ≤ status → status ≤ 599 →
    ∀ proxy ∈ x.errorProxy status, ¬ x.Slips proxy

structure Positive (x : Exchange) : Prop where
  route : 0 < x.proxy.retry.maxAttempts
  error : ∀ status, ∀ proxy ∈ x.errorProxy status, 0 < proxy.retry.maxAttempts

variable {proxy : ProxyConfig} {checked now attempts : Nat} {answer : Answer}

theorem http12_of_uncounted (h : x.counts proxy = false) : x.transport = .http12 := by
  cases ht : x.transport with
  | http12 => rfl
  | http3 => simp [counts, ht] at h

theorem lt_of_permitsAnotherAttempt {policy : RetryConfig} {deadline : Option Nat}
    (h : policy.permitsAnotherAttempt attempts deadline now = true) :
    attempts < policy.maxAttempts := by
  rw [RetryConfig.permitsAnotherAttempt, Bool.and_eq_true, decide_eq_true_eq] at h
  exact h.1

theorem repeatable_of_permits (h : x.permits s now answer = true) :
    x.isRepeatable s.proxy = true ∧ s.attempts < s.proxy.retry.maxAttempts := by
  rw [permits, permitsRetry, Bool.and_eq_true, Bool.and_eq_true, Bool.and_eq_true] at h
  exact ⟨h.1.1.1, lt_of_permitsAnotherAttempt h.1.1.2⟩

theorem errorProxyFor_eq_some (h : x.errorProxyFor s answer = some proxy) :
    s.handlingError = false ∧ 500 ≤ answer.status ∧ answer.status ≤ 599 ∧
      proxy ∈ x.errorProxy answer.status := by
  unfold errorProxyFor at h
  split at h
  · next hcond => simpa [and_assoc] using And.intro hcond h
  · simp at h

theorem connect_log {a : Attempt} {rest : List Attempt} (h : s.log = a :: rest) :
    connect s = { s with phase := .exchanging, log := { a with connected := true } :: rest } := by
  simp [connect, h]

/-- A proxy that the request has not been sent to. -/
theorem kept_of_fresh (hlog : s.log = []) (hatt : s.attempts = 0) (hph : s.phase = .waiting)
    (hb : ∀ leg ∈ s.before, x.Bounded leg.1 leg.2)
    (hroute : s.handlingError = false → s.proxy = x.proxy) (hp : 0 < s.proxy.retry.maxAttempts)
    (hwi : ¬ x.Slips s.proxy) (hclock : x.started ≤ s.clock)
    (hcur : x.deadlineFor s = s.proxy.retry.deadline x.started) : x.Kept s where
  before := hb
  route := hroute
  positive := hp
  within := hwi
  began := hclock
  current := hcur
  dispatched := by simp [hph]
  starts := by simp [hlog]
  once := by simp [hlog]
  unconnected := by simp [hlog]
  size := by simp [hlog]
  counted := fun _ => by simp [hlog, hatt, hp]
  uncounted := fun _ => by
    rw [hlog, List.length_nil, Nat.zero_mul]
    exact ⟨hatt, by omega, fun _ => by omega⟩

section Kept

variable (h : x.Kept s)

include h

theorem Kept.fine : x.Fine s :=
  ⟨⟨h.size, fun a ha => (h.starts a ha).2, h.once⟩, h.before⟩

theorem deadlineFor_peer (attempts : Nat) (pending : Bool) (clock : Nat)
    (phase : Phase) (log : List Attempt) :
    x.deadlineFor
        { s with
          deadline := x.deadlineFor s
          pending := pending
          clock := clock
          phase := phase
          attempts := attempts
          log := log } =
      s.proxy.retry.deadline x.started := by
  have hcur := h.current
  cases ht : x.transport with
  | http12 =>
    simp only [deadlineFor, ht] at hcur ⊢
    split
    · rfl
    · exact hcur
  | http3 =>
    simp only [deadlineFor, ht] at hcur ⊢
    exact hcur

/-- Where the route's proxy was sent the request, its deadline lies behind the request's start. -/
theorem Kept.totalTimeoutMs_ne_zero (hph : s.phase = .exchanging)
    (hhg : s.handlingError = false) : x.proxy.retry.totalTimeoutMs ≠ some 0 := by
  intro hz
  obtain ⟨a, rest, hlog⟩ := List.exists_cons_of_ne_nil (h.dispatched (.inr hph))
  obtain ⟨hle, hlt⟩ := h.starts a (by simp [hlog])
  have hlt : a.start < x.started :=
    hlt x.started (by rw [h.route hhg, RetryConfig.deadline, hz]; rfl)
  omega

theorem Kept.connect (hph : s.phase = .connecting) : x.Kept (connect s) := by
  obtain ⟨a, rest, hlog⟩ := List.exists_cons_of_ne_nil (h.dispatched (.inl hph))
  have hlen : s.log.length = rest.length + 1 := by rw [hlog]; rfl
  rw [connect_log hlog]
  exact
    { h with
      dispatched := fun _ => List.cons_ne_nil _ _
      starts := by
        intro b hb
        rcases List.mem_cons.mp hb with rfl | hb
        · exact h.starts a (by simp [hlog])
        · exact h.starts b (by simp [hlog, hb])
      once := by
        intro hrpt b hb
        exact h.once hrpt b (by simpa [hlog] using hb)
      unconnected := by simp
      size := by
        have hsz := h.size
        rwa [hlen] at hsz
      counted := by
        intro hc
        have hcntd := (h.counted hc).1
        rw [hlen] at hcntd
        exact ⟨hcntd, by simp⟩
      uncounted := by
        intro hc
        obtain ⟨hz, hspd, -⟩ := h.uncounted hc
        rw [hlen] at hspd
        exact ⟨hz, hspd, by simp⟩ }

section Peer

variable (hchk : s.clock + x.pause s ≤ checked)

include hchk

/-- The attempt that comes next finds room in the log. -/
theorem Kept.length_lt (hph : s.phase = .waiting)
    (hdl : ∀ d ∈ s.proxy.retry.deadline x.started, checked < d) :
    s.log.length < s.proxy.retry.maxAttempts := by
  cases hc : x.counts s.proxy with
  | true =>
    obtain ⟨hlen, hlt⟩ := h.counted hc
    exact hlen.trans_lt (hlt hph)
  | false =>
    -- The pauses so far already take what the timeout has room for.
    obtain ⟨-, -, hdu⟩ := h.uncounted hc
    obtain ⟨t, ht, hle⟩ : ∃ t ∈ s.proxy.retry.totalTimeoutMs,
        millis t ≤ s.proxy.retry.maxAttempts * s.proxy.retry.backoff := by
      by_contra hnone
      exact h.within (.inl ⟨hc, fun t ht =>
        by_contra fun hlt => hnone ⟨t, ht, Nat.le_of_not_lt hlt⟩⟩)
    have hlt : checked < x.started + millis t :=
      hdl _ (by rw [RetryConfig.deadline, mem_def.mp ht]; rfl)
    have hdu := hdu hph
    have hmu : s.log.length * s.proxy.retry.backoff <
        s.proxy.retry.maxAttempts * s.proxy.retry.backoff := by omega
    exact Nat.lt_of_mul_lt_mul_right hmu

/-- An attempt that is dispatched in time keeps the invariant, counted where it is. -/
theorem Kept.dispatch (hph : s.phase = .waiting)
    (hdl : ∀ d ∈ s.proxy.retry.deadline x.started, checked < d)
    (hatt : attempts = if x.counts s.proxy then s.attempts + 1 else s.attempts) :
    x.Kept (dispatch
        { s with
          deadline := x.deadlineFor s
          pending := false
          clock := checked
          attempts := attempts }) := by
  have hbegan := h.began.trans ((Nat.le_add_right _ _).trans hchk)
  have hunc (hrpt : x.isRepeatable s.proxy = false) := h.unconnected hrpt (.inl hph)
  refine { h with
    began := hbegan
    current := deadlineFor_peer h _ _ _ _ _
    dispatched := fun _ => List.cons_ne_nil _ _
    starts := List.forall_mem_cons.mpr ⟨⟨hbegan, hdl⟩, h.starts⟩
    once := hunc
    unconnected := fun hrpt _ => List.forall_mem_cons.mpr ⟨rfl, hunc hrpt⟩
    size := h.length_lt hchk hph hdl
    counted := fun hc => ?_
    uncounted := fun hc => ?_ }
  · have hc : x.counts s.proxy = true := hc
    rw [if_pos hc] at hatt
    refine ⟨hatt ▸ Nat.succ_le_succ (h.counted hc).1, ?_⟩
    intro hwt
    cases hwt
  · have hc : x.counts s.proxy = false := hc
    obtain ⟨hz, -, hdu⟩ := h.uncounted hc
    refine ⟨?_, ?_, ?_⟩
    · rw [if_neg (by simp [hc])] at hatt
      exact hatt.trans hz
    · have hdu := (hdu hph).trans hchk
      calc x.started + (s.log.length + 1) * s.proxy.retry.backoff
          = x.started + s.log.length * s.proxy.retry.backoff + s.proxy.retry.backoff := by
            rw [Nat.succ_mul, Nat.add_assoc]
        _ ≤ checked + s.proxy.retry.backoff := Nat.add_le_add_right hdu _
    · intro hwt
      cases hwt

/-- A request that ends instead of being dispatched. -/
theorem Kept.ended
    (hatt : attempts = s.attempts ∨ x.counts s.proxy = true ∧ attempts = s.attempts + 1) :
    x.Kept
      { s with
        deadline := x.deadlineFor s
        pending := false
        clock := checked
        attempts := attempts
        phase := .done } := by
  refine { h with
    began := h.began.trans ((Nat.le_add_right _ _).trans hchk)
    current := deadlineFor_peer h _ _ _ _ _
    dispatched := by simp
    unconnected := by simp
    counted := fun hc => ⟨?_, by simp⟩
    uncounted := fun hc => ?_ }
  · have hlen := (h.counted hc).1
    rcases hatt with hatt | ⟨-, hatt⟩
    · exact hatt ▸ hlen
    · exact hatt ▸ hlen.trans (Nat.le_succ _)
  · obtain ⟨hz, hspd, -⟩ := h.uncounted hc
    refine ⟨?_, hspd.trans (Nat.add_le_add_right ((Nat.le_add_right _ _).trans hchk) _), by simp⟩
    rcases hatt with hatt | ⟨hcts, -⟩
    · exact hatt.trans hz
    · simp [hc] at hcts

theorem Kept.upstreamPeer (hph : s.phase = .waiting) (found inTime : Bool) :
    x.Kept (x.upstreamPeer s checked found inTime) := by
  unfold Exchange.upstreamPeer
  by_cases hstop : ((x.deadlineFor s).any (· ≤ checked) || !found) = true
  · rw [if_pos hstop]
    exact h.ended hchk (.inl rfl)
  · have hdl : ∀ d ∈ s.proxy.retry.deadline x.started, checked < d := by
      intro d hd
      rw [← h.current, mem_def] at hd
      simp only [hd, any_some, Bool.or_eq_true, decide_eq_true_eq, not_or] at hstop
      exact Nat.lt_of_not_le hstop.1
    rw [if_neg hstop]
    by_cases hc : x.counts s.proxy = true
    · rw [if_pos hc]
      cases inTime with
      | true => exact h.dispatch hchk hph hdl (by rw [if_pos hc])
      | false => exact h.ended hchk (.inr ⟨hc, rfl⟩)
    · rw [if_neg hc]
      exact h.dispatch hchk hph hdl (by rw [if_neg hc])

end Peer

variable (hnow : s.clock ≤ now)

include hnow

/-- Another attempt waits, or none does. -/
theorem Kept.moved {phase : Phase} {pending : Bool}
    (hconnecting : phase ≠ .connecting) (hexchanging : phase = .exchanging → s.log ≠ [])
    (hwt : phase = .waiting → s.attempts < s.proxy.retry.maxAttempts ∧
      (x.isRepeatable s.proxy = false → ∀ a ∈ s.log, a.connected = false) ∧
      (x.counts s.proxy = false → pending = true)) :
    x.Kept { s with phase := phase, clock := now, pending := pending } := by
  refine { h with
    began := h.began.trans hnow
    dispatched := fun hph => hexchanging (hph.resolve_left hconnecting)
    unconnected := fun hrpt hph =>
      (hwt (hph.resolve_right hconnecting)).2.1 hrpt
    counted := fun hc => ⟨(h.counted hc).1, fun hph => (hwt hph).1⟩
    uncounted := fun hc => ?_ }
  obtain ⟨hz, hspd, -⟩ := h.uncounted hc
  refine ⟨hz, hspd.trans (Nat.add_le_add_right hnow _), fun hph => ?_⟩
  have hpend := (hwt hph).2.2 hc
  simp only [pause, http12_of_uncounted hc, hpend, if_true]
  exact hspd.trans (Nat.add_le_add_right hnow _)

theorem Kept.settle {retry : Bool}
    (hrty : retry = true → s.attempts < s.proxy.retry.maxAttempts ∧
      (x.isRepeatable s.proxy = false → ∀ a ∈ s.log, a.connected = false)) :
    x.Kept (settle s now retry) := by
  cases retry with
  | true =>
    exact h.moved hnow (by decide) (by simp) fun _ => ⟨(hrty rfl).1, (hrty rfl).2, fun _ => rfl⟩
  | false => exact h.moved hnow (by decide) (by simp) (by simp)

theorem Kept.failToConnect (hph : s.phase = .connecting) : x.Kept (failToConnect s now) :=
  h.settle hnow fun hrty =>
    ⟨lt_of_permitsAnotherAttempt hrty, fun hrpt => h.unconnected hrpt (.inr hph)⟩

theorem Kept.errorWhileProxy (retryable : Bool) : x.Kept (x.errorWhileProxy s now retryable) := by
  apply h.settle hnow
  intro hrty
  rw [Bool.and_eq_true, Bool.and_eq_true] at hrty
  refine ⟨lt_of_permitsAnotherAttempt hrty.1.2, fun hrpt => ?_⟩
  exact absurd hrty.1.1 (by simp [hrpt])

/-- Where the protocol does not match, a second attempt is left only to a request that may be
repeated. -/
theorem Kept.repeatable_of_mismatch (ht : x.transport = .http3)
    (hreq : s.proxy.requiresH2 = true) (hph : s.phase = .connecting)
    (hrty : s.proxy.retry.permitsAnotherAttempt s.attempts s.deadline now = true) :
    x.isRepeatable s.proxy = true := by
  rw [← Bool.not_eq_false]
  intro hrpt
  have hcts : x.counts s.proxy = true := by simp [counts, ht]
  have hpos : 0 < s.attempts :=
    (List.length_pos_iff.mpr (h.dispatched (.inl hph))).trans_le (h.counted hcts).1
  have hlt := lt_of_permitsAnotherAttempt hrty
  refine h.within (.inr ⟨ht, hreq, hrpt, by omega, fun t hmem => ?_⟩)
  have hdl : s.deadline = some (x.started + millis t) := by
    have hcur := h.current
    simp only [deadlineFor, ht] at hcur
    rw [hcur, RetryConfig.deadline, mem_def.mp hmem]
    rfl
  simp only [RetryConfig.permitsAnotherAttempt, hdl, all_some, Bool.and_eq_true,
    decide_eq_true_eq] at hrty
  have hbegan := h.began
  omega

theorem Kept.rejectAlpn (hph : s.phase = .connecting)
    (hreq : s.proxy.requiresH2 = true) : x.Kept (x.rejectAlpn s now) := by
  rw [Exchange.rejectAlpn]
  cases ht : x.transport with
  | http12 => exact (h.connect hph).errorWhileProxy hnow false
  | http3 =>
    refine (h.connect hph).settle hnow fun hrty => ⟨lt_of_permitsAnotherAttempt hrty, ?_⟩
    intro hrpt
    have hrpt : x.isRepeatable s.proxy = false := hrpt
    exact absurd (h.repeatable_of_mismatch hnow ht hreq hph hrty) (by simp [hrpt])

theorem Kept.broken (retryable : Bool) : x.Kept (x.broken s now retryable) := by
  unfold Exchange.broken
  cases x.transport with
  | http12 => exact h.errorWhileProxy hnow retryable
  | http3 => exact h.moved hnow (by decide) (by simp) (by simp)

variable (hp : x.Positive) (hwi : x.Within)

include hp hwi

theorem Kept.handOver (hph : s.phase = .exchanging) (hpx : x.errorProxyFor s answer = some proxy) :
    x.Kept (x.handOver s now proxy) := by
  obtain ⟨hhg, hge, hle, hmem⟩ := errorProxyFor_eq_some hpx
  apply kept_of_fresh rfl rfl rfl
  · intro leg hleg
    rcases List.mem_cons.mp hleg with rfl | hleg
    · exact h.fine.1
    · exact h.before leg hleg
  · exact fun hfal => absurd hfal (by simp [Exchange.handOver])
  · exact hp.error _ proxy hmem
  · exact hwi.error (h.totalTimeoutMs_ne_zero hph hhg) _ hge hle proxy hmem
  · exact h.began.trans hnow
  · cases ht : x.transport with
    | http12 => simp [deadlineFor, Exchange.handOver, ht]
    | http3 => simp [deadlineFor, Exchange.handOver, ht]

theorem Kept.upstreamResponseFilter
    (hph : s.phase = .exchanging) {decided : Nat} (hdecided : now ≤ decided)
    (answer : Answer) : x.Kept (x.upstreamResponseFilter s now decided answer) := by
  unfold Exchange.upstreamResponseFilter
  cases hpx : x.errorProxyFor s answer with
  | some p => exact h.handOver hnow hp hwi hph hpx
  | none =>
    by_cases hinterim : isInterim answer = true
    · rw [if_pos hinterim]
      exact h.moved hnow (by simp [hph]) (fun _ => h.dispatched (.inr hph)) (by simp [hph])
    rw [if_neg hinterim]
    by_cases hpermits : x.permits s now answer = true
    · rw [if_pos hpermits]
      exact h.errorWhileProxy (hnow.trans hdecided) true
    · rw [if_neg hpermits]
      exact h.moved hnow (by decide) (by simp) (by simp)

theorem Kept.answeredHttp3 (htp : x.transport = .http3) (hph : s.phase = .exchanging)
    (answer : Answer) : x.Kept (x.answeredHttp3 s now answer) := by
  unfold Exchange.answeredHttp3
  by_cases hinterim : isInterim answer = true
  · rw [if_pos hinterim]
    exact h.moved hnow (by simp [hph]) (fun _ => h.dispatched (.inr hph)) (by simp [hph])
  rw [if_neg hinterim]
  by_cases hswitch : answer.status = 101
  · rw [if_pos hswitch]
    exact h.moved hnow (by decide) (by simp) (by simp)
  rw [if_neg hswitch]
  by_cases hpermits : x.permits s now answer = true
  · obtain ⟨hrpt, hlt⟩ := repeatable_of_permits hpermits
    rw [if_pos hpermits]
    refine h.moved hnow (by decide) (by simp) fun _ => ⟨hlt, ?_, ?_⟩
    · exact fun hfal => absurd hrpt (by simp [hfal])
    · exact fun huncounted => absurd (http12_of_uncounted huncounted) (by simp [htp])
  rw [if_neg hpermits]
  cases hpx : x.errorProxyFor s answer with
  | some p => exact h.handOver hnow hp hwi hph hpx
  | none => exact h.moved hnow (by decide) (by simp) (by simp)

omit hnow in
theorem Kept.step {e : Event} (he : x.Ticks s e) : x.Kept (x.step s e) := by
  cases e with
  | peer c found inTime =>
    rw [Exchange.step]
    split
    · next hph => exact h.upstreamPeer he hph found inTime
    · exact h
  | refused now =>
    rw [Exchange.step]
    split
    · next hph => exact h.failToConnect he hph
    · exact h
  | connected =>
    rw [Exchange.step]
    split
    · next hph => exact h.connect hph
    · exact h
  | mismatched now =>
    rw [Exchange.step]
    split
    · next hcond => exact h.rejectAlpn he hcond.1 hcond.2
    · exact h
  | answered now d answer =>
    rw [Exchange.step]
    split
    · next hph =>
      cases ht : x.transport with
      | http12 => exact h.upstreamResponseFilter he.1 hp hwi hph he.2 answer
      | http3 => exact h.answeredHttp3 he.1 hp hwi ht hph answer
    · exact h
  | broken now er cl b =>
    rw [Exchange.step]
    split
    · exact h.broken he _
    · exact h

end Kept

theorem deadlineFor_start (x : Exchange) :
    x.deadlineFor x.machine.start = x.proxy.retry.deadline x.started := by
  cases ht : x.transport with
  | http12 => simp [deadlineFor, machine, ht]
  | http3 => simp [deadlineFor, machine, ht]

theorem kept_start (hp : x.Positive) (hwi : x.Within) : x.Kept x.machine.start :=
  kept_of_fresh rfl rfl rfl (fun _ hleg => absurd hleg List.not_mem_nil) (fun _ => rfl)
    hp.route hwi.route (Nat.le_refl _) x.deadlineFor_start

end Exchange

namespace Templated

def single : RetryConfig where
  maxAttempts := 1
  totalTimeoutMs := some 5000
  backoffMs := 250
  retryMatch := []

/-- Two attempts, and what the first comes to. -/
def attempts (outcome : Event) : List Event :=
  [.peer 0 true true, outcome, .peer 251000000 true true]

end Templated

end Pingclair.Retries
