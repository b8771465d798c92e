import Mathlib.Data.List.MinMax
import Pingclair.Balancing.BackendHealth
import Pingclair.Lib.Runs

/-!
# The load balancer

A backup pool is asked only when no primary backend can take a request: one that is not marked down,
that the active health check finds ready, that the request has not tried yet and, in a first pass,
that its slow start admits. The round-robin and hashing selectors and the verdicts of the active
health check are another library's: parameters here.
-/

namespace Pingclair

open ByteText

def addressHash : SocketAddr → Nat
  | .v4 octets port => octets.foldl (fun hash octet => hash * 2 ^ 8 + octet.toNat) 0 ^^^ port.toNat
  | .v6 segments port _ _ =>
    let half (segments : List UInt16) :=
      segments.foldl (fun hash segment => hash * 2 ^ 16 + segment.toNat) 0
    half (segments.toList.take 4) ^^^ half (segments.toList.drop 4) ^^^ port.toNat

def slowStartReady (now : Nat) (slots : SocketAddr → Option Nat) (duration : Nat)
    (address : SocketAddr) : Bool :=
  if duration = 0 then true
  else
    match slots address with
    | none => true
    | some started =>
      if started = 0 then true
      else
        let elapsed := now - started
        let total := asMillis duration
        if elapsed ≥ total then true
        else
          let allowance := min (elapsed * 1000) u64Max / max total 1
          let phase := now / 100
          (addressHash address + phase * 1103515245) % 2 ^ 64 % 1000 < allowance

inductive Strategy where
  | roundRobin
  | random
  | leastConn
  | ipHash
  | first
  deriving DecidableEq

def Strategy.ordered : Strategy → Bool
  | .leastConn | .first => true
  | .roundRobin | .random | .ipHash => false

inductive NativeKind where
  | roundRobin
  | ketama

/-- The native selectors. `selectWith` asks `accept` of a backend and of its own verdict. -/
structure NativeLib where
  Selector : Type
  build : NativeKind → List Upstream → Selector
  selectWith : Selector → Bytes → Nat → (Upstream → Bool → Bool) → Option Upstream × Selector

structure LeastConnTracker where
  counters : List (Upstream × Nat)

namespace LeastConnTracker

variable (tracker : LeastConnTracker)

def new (upstreams : List Upstream) : LeastConnTracker := ⟨upstreams.map (·, 0)⟩

def upstreams : List Upstream := tracker.counters.map Prod.fst

/-- The first of the admitted backends with the lowest count, and the position of its counter. -/
def select (admits : Upstream → Bool) : Option (Upstream × Nat) :=
  ((tracker.counters.zipIdx.filter fun entry => admits entry.1.1).argmin (·.1.2)).map
    fun entry => (entry.1.1, entry.2)

def selectFirst (admits : Upstream → Bool) : Option (Upstream × Nat) :=
  (tracker.counters.zipIdx.find? fun entry => admits entry.1.1).map
    fun entry => (entry.1.1, entry.2)

def acquire (index : Nat) : LeastConnTracker :=
  ⟨tracker.counters.modify index fun entry => (entry.1, (entry.2 + 1) % 2 ^ 64)⟩

@[simp] theorem upstreams_new (upstreams : List Upstream) :
    (new upstreams).upstreams = upstreams := by
  simp [new, LeastConnTracker.upstreams, Function.comp_def]

@[simp] theorem upstreams_acquire (i : Nat) :
    (tracker.acquire i).upstreams = tracker.upstreams := by
  apply List.map_modify_of_eq
  intro entry
  rfl

end LeastConnTracker

structure HealthCheckSettings where
  slowStart : Nat

structure Pool (native : NativeLib) where
  nativeRr : Option native.Selector
  nativeKetama : Option native.Selector
  orderedBackends : Option LeastConnTracker
  activeHealth : Option (Upstream → Bool)
  recoverySlots : SocketAddr → Option Nat
  slowStart : Nat
  health : BackendHealth

variable {native : NativeLib}

/-- The selectors for a list of backends. The active health check starts with all ready. -/
def buildPool (strategy : Strategy) (backends : List Upstream)
    (previousHealth : Option BackendHealth) (healthCheck : Option HealthCheckSettings)
    (recovery : SocketAddr → Option Nat) : Pool native :=
  let addrs := backends.filterMap inetAddress
  let pool : Pool native := {
    nativeRr := none
    nativeKetama := none
    orderedBackends := none
    activeHealth := healthCheck.map fun _ _ => true
    recoverySlots := carried recovery 0 addrs
    slowStart := (healthCheck.map (·.slowStart)).getD 0
    health := .rebuilt previousHealth addrs }
  match strategy with
  | .leastConn | .first => { pool with orderedBackends := some (.new backends) }
  | .ipHash =>
    { pool with
      nativeRr := some (native.build .roundRobin backends)
      nativeKetama := some (native.build .ketama backends) }
  | .roundRobin | .random => { pool with nativeRr := some (native.build .roundRobin backends) }

namespace Pool

variable (pool : Pool native) (excluded : List SocketAddr) (now : Nat)

def activeReady (backend : Upstream) : Bool := pool.activeHealth.all (· backend)

def admits (slowStart : Nat) (backend : Upstream) : Bool :=
  pool.health.isUpBackend now backend && (inetAddress backend).all (· ∉ excluded) &&
    pool.activeReady backend &&
    (inetAddress backend).all (slowStartReady now pool.recoverySlots slowStart)

def selectFirst : Option (Upstream × Nat) :=
  pool.orderedBackends.bind fun tracker =>
    (tracker.selectFirst (pool.admits excluded now pool.slowStart)).or
      (tracker.selectFirst (pool.admits excluded now 0))

def selectLeastConn : Option (Upstream × Nat) :=
  pool.orderedBackends.bind fun tracker =>
    (tracker.select (pool.admits excluded now pool.slowStart)).or
      (tracker.select (pool.admits excluded now 0))

def acquire (index : Nat) : Pool native :=
  { pool with orderedBackends := pool.orderedBackends.map (·.acquire index) }

def selectNative (selector : native.Selector) (key : Bytes) : Option Upstream × native.Selector :=
  let accept (slowStart : Nat) (backend : Upstream) (ready : Bool) :=
    ready && pool.admits excluded now slowStart backend
  match native.selectWith selector key 256 (accept pool.slowStart) with
  | (some upstream, selector) => (some upstream, selector)
  | (none, selector) => native.selectWith selector key 256 (accept 0)

def selectRoundRobin : Option Upstream × Pool native :=
  match pool.nativeRr with
  | none => (none, pool)
  | some selector =>
    let (upstream, selector) := pool.selectNative excluded now selector []
    (upstream, { pool with nativeRr := some selector })

def selectKetama (key : Bytes) : Option Upstream × Pool native :=
  match pool.nativeKetama with
  | none => (none, pool)
  | some selector =>
    let (upstream, selector) := pool.selectNative excluded now selector key
    (upstream, { pool with nativeKetama := some selector })

def take : Option (Upstream × Nat) → Option Upstream × Pool native
  | none => (none, pool)
  | some (upstream, index) => (some upstream, pool.acquire index)

def select (strategy : Strategy) (key : Option Bytes) : Option Upstream × Pool native :=
  match strategy with
  | .first => pool.take (pool.selectFirst excluded now)
  | .leastConn => pool.take (pool.selectLeastConn excluded now)
  | .ipHash =>
    if key.all (·.isEmpty) then pool.selectRoundRobin excluded now
    else pool.selectKetama excluded now (key.getD [])
  | .roundRobin | .random => pool.selectRoundRobin excluded now

def upstreams : Option (List Upstream) := pool.orderedBackends.map (·.upstreams)

@[simp] theorem upstreams_acquire (i : Nat) : (pool.acquire i).upstreams = pool.upstreams := by
  rw [upstreams, upstreams, acquire]
  simp [Function.comp_def]

@[simp] theorem upstreams_take (chosen : Option (Upstream × Nat)) :
    (pool.take chosen).2.upstreams = pool.upstreams := by
  cases chosen with
  | none => rfl
  | some chosen => exact pool.upstreams_acquire chosen.2

@[simp] theorem upstreams_selectRoundRobin :
    (pool.selectRoundRobin excluded now).2.upstreams = pool.upstreams := by
  rw [selectRoundRobin]
  split <;> rfl

@[simp] theorem upstreams_selectKetama (key : Bytes) :
    (pool.selectKetama excluded now key).2.upstreams = pool.upstreams := by
  rw [selectKetama]
  split <;> rfl

@[simp] theorem upstreams_select (strategy : Strategy) (key : Option Bytes) :
    (pool.select excluded now strategy key).2.upstreams = pool.upstreams := by
  cases strategy with
  | first | leastConn => exact pool.upstreams_take _
  | roundRobin | random => exact pool.upstreams_selectRoundRobin excluded now
  | ipHash =>
    rw [select]
    split
    · exact pool.upstreams_selectRoundRobin excluded now
    · exact pool.upstreams_selectKetama excluded now _

theorem upstreams_buildPool (strategy : Strategy) (backends : List Upstream)
    (previousHealth : Option BackendHealth) (healthCheck : Option HealthCheckSettings)
    (recovery : SocketAddr → Option Nat) :
    (buildPool strategy backends previousHealth healthCheck recovery : Pool native).upstreams =
      if strategy.ordered then some backends else none := by
  cases strategy <;> simp [buildPool, upstreams, Strategy.ordered]

end Pool

structure TrackedUpstream where
  weight : Nat
  backend : Option Upstream

def backends (tracked : List TrackedUpstream) : List Upstream := tracked.filterMap (·.backend)

structure Tier (native : NativeLib) (strategy : Strategy) where
  tracked : List TrackedUpstream
  healthCheck : Option HealthCheckSettings
  pool : Pool native
  upstreams_eq : pool.upstreams = if strategy.ordered then some (backends tracked) else none

variable {strategy : Strategy}

namespace Tier

variable (tier : Tier native strategy) (now : Nat)

def fromTracked (tracked : List TrackedUpstream) : Tier native strategy where
  tracked
  healthCheck := none
  pool := buildPool strategy (backends tracked) none none fun _ => none
  upstreams_eq := Pool.upstreams_buildPool ..

/-- The tier for new upstreams. Health marks and recoveries of addresses that stay are kept, the
selectors are new. -/
def publish (tracked : List TrackedUpstream) : Tier native strategy where
  tracked
  healthCheck := tier.healthCheck
  pool := buildPool strategy (backends tracked) (some tier.pool.health) tier.healthCheck
    tier.pool.recoverySlots
  upstreams_eq := Pool.upstreams_buildPool ..

def setHealthCheck (settings : HealthCheckSettings) : Tier native strategy :=
  publish { tier with healthCheck := some settings } tier.tracked

def probed (ready : Upstream → Bool) (recovery : SocketAddr → Option Nat) : Tier native strategy :=
  { tier with
    pool := { tier.pool with
      activeHealth := tier.pool.activeHealth.map fun _ => ready
      recoverySlots := recovery } }

def markFailure (addr : SocketAddr) (policy : PassiveHealth) : Tier native strategy :=
  { tier with pool := { tier.pool with health := tier.pool.health.markFailure now addr policy } }

def upCount : Nat :=
  ((backends tier.tracked).filterMap inetAddress).countP (tier.pool.health.isUp now)

def select (key : Option Bytes) (excluded : List SocketAddr) :
    Option Upstream × Tier native strategy :=
  let selection := tier.pool.select excluded now strategy key
  (selection.1,
    { tier with
      pool := selection.2
      upstreams_eq := (tier.pool.upstreams_select ..).trans tier.upstreams_eq })

/-- The backends that are not marked down and that the active health check finds ready. -/
def selectable : List Upstream :=
  (backends tier.tracked).filter fun backend =>
    tier.pool.health.isUpBackend now backend && tier.pool.activeReady backend

/-- A failure takes out the backends at the address, if it tips. -/
theorem selectable_markFailure (addr : SocketAddr) (pol : PassiveHealth) :
    (tier.markFailure now addr pol).selectable now =
      (tier.selectable now).filter fun backend =>
        !(decide (inetAddress backend = some addr) && tier.pool.health.tips now addr pol) := by
  rw [selectable, selectable, List.filter_filter]
  apply List.filter_congr
  intro backend _
  simp only [markFailure, BackendHealth.isUpBackend_markFailure, Pool.activeReady]
  rw [Bool.and_right_comm, Bool.and_comm]

end Tier

structure LoadBalancer (native : NativeLib) (strategy : Strategy) where
  primary : Tier native strategy
  backup : Option (Tier native strategy)

namespace LoadBalancer

variable (balancer : LoadBalancer native strategy) (now : Nat)

def fromTracked (primary : List TrackedUpstream) (backup : Option (List TrackedUpstream)) :
    LoadBalancer native strategy :=
  ⟨.fromTracked primary, backup.map .fromTracked⟩

def withBackup (primary backup : List Upstream) : LoadBalancer native strategy :=
  let tracked := List.map fun backend : Upstream => ⟨backend.weight, some backend⟩
  fromTracked (tracked primary) (if backup = [] then none else some (tracked backup))

def markFailure (addr : SocketAddr) (policy : PassiveHealth) : LoadBalancer native strategy where
  primary := balancer.primary.markFailure now addr policy
  backup := balancer.backup.map (·.markFailure now addr policy)

/-- At most one backend is selectable, as far as the passive marks say. -/
def isLastSelectable : Bool :=
  let up := balancer.primary.upCount now
  if up > 1 then false else up + (balancer.backup.map (·.upCount now)).getD 0 ≤ 1

/-- A failure after the connection was made. It does not count against the last backend. -/
def markResponseFailure (addr : SocketAddr) (policy : PassiveHealth) :
    LoadBalancer native strategy :=
  if balancer.isLastSelectable now then balancer else balancer.markFailure now addr policy

def selectExcluding (key : Option Bytes) (excluded : List SocketAddr) :
    Option Upstream × LoadBalancer native strategy :=
  match balancer.primary.select now key excluded with
  | (some upstream, primary) => (some upstream, { balancer with primary })
  | (none, primary) =>
    match balancer.backup.map (·.select now key excluded) with
    | none => (none, { balancer with primary })
    | some (upstream, backup) => (upstream, ⟨primary, some backup⟩)

def tiers : List (Tier native strategy) := balancer.primary :: balancer.backup.toList

def selectable : List Upstream := balancer.tiers.flatMap (·.selectable now)

theorem selectable_ne_nil : balancer.selectable now ≠ [] ↔
    ∃ tier ∈ balancer.tiers, tier.selectable now ≠ [] := by
  simp [selectable]

theorem tiers_markFailure (addr : SocketAddr) (pol : PassiveHealth) :
    (balancer.markFailure now addr pol).tiers =
      balancer.tiers.map (·.markFailure now addr pol) := by
  rw [tiers, tiers, markFailure]
  cases balancer.backup <;> rfl

/-- A failed response leaves some backend selectable exactly when it is not counted, or when
there is a selectable backend that it does not mark down: one at another address, or in a pool
where the failures of the address stay below the limit. -/
theorem selectable_markResponseFailure_iff (addr : SocketAddr) (policy : PassiveHealth)
    (h : balancer.selectable now ≠ []) :
    (balancer.markResponseFailure now addr policy).selectable now ≠ [] ↔
      balancer.isLastSelectable now = true ∨
        ∃ tier ∈ balancer.tiers, ∃ backend ∈ tier.selectable now,
          ¬ (inetAddress backend = some addr ∧ tier.pool.health.tips now addr policy = true) := by
  rw [markResponseFailure]
  split
  · next hla => exact iff_of_true h (.inl hla)
  · next hla =>
    rw [selectable_ne_nil, tiers_markFailure]
    simp [hla, Tier.selectable_markFailure, List.filter_eq_nil_iff]

def inOrder : NativeLib where
  Selector := List Upstream
  build _ backends := backends
  selectWith selector _ _ accept := (selector.find? (accept · true), selector)

def sampleAddr (port : UInt16) : SocketAddr := .v4 #v[10, 0, 0, 1] port

def sampleBackend (port : UInt16) : Upstream := ⟨.inet (sampleAddr port), 1⟩

def twoBackends : LoadBalancer inOrder .roundRobin :=
  withBackup [sampleBackend 1, sampleBackend 2] []

theorem selectable_markResponseFailure_twoBackends :
    (twoBackends.markResponseFailure 5 (sampleAddr 1) .default).selectable 5 ≠ [] :=
  (selectable_markResponseFailure_iff twoBackends 5 (sampleAddr 1) .default (by decide)).mpr
    (.inr ⟨twoBackends.primary, by simp [tiers], sampleBackend 2, by decide, by decide⟩)

def secondUnready : LoadBalancer inOrder .roundRobin :=
  { twoBackends with
    primary := (twoBackends.primary.setHealthCheck ⟨0⟩).probed (· = sampleBackend 1)
      twoBackends.primary.pool.recoverySlots }

/-- Only the first backend is selectable, but neither is marked down, so a failure of the first
counts. -/
theorem not_selectable_of_unready :
    secondUnready.selectable 5 = [sampleBackend 1] ∧
      (secondUnready.markResponseFailure 5 (sampleAddr 1) .default).selectable 5 = [] := by
  decide

end LoadBalancer

end Pingclair
