import Pingclair.Balancing.LoadBalancer

/-!
# Least connections

The strategy selects, of the backends that can take a request, one with the lowest count. The count
goes up when a backend is selected and never down, and a new pool starts at zero.

A run keeps, beside the state, the requests that a backend was selected for.
-/

namespace Pingclair

open ByteText List

section Least

variable {α β : Type}

/-- A choice of an item with the lowest count; of nothing, if there is no item. -/
def Least (count : α → Nat) (items : List α) : Option α → Prop
  | none => items = []
  | some item => item ∈ items ∧ ∀ other ∈ items, count item ≤ count other

instance [DecidableEq α] (count : α → Nat) (items : List α) :
    (choice : Option α) → Decidable (Least count items choice)
  | none => inferInstanceAs (Decidable (items = []))
  | some item =>
    inferInstanceAs (Decidable (item ∈ items ∧ ∀ other ∈ items, count item ≤ count other))

theorem least_argmin (count : α → Nat) (items : List α) :
    Least count items (items.argmin count) := by
  cases h : items.argmin count with
  | none => exact argmin_eq_none.mp h
  | some i =>
    exact ⟨argmin_mem h, fun o ho => le_of_mem_argmin ho h⟩

variable {count count' : α → Nat} {items items' : List α} {choice choice' : Option α}

theorem Least.mono (h : Least count items choice)
    (hle : ∀ a ∈ items, ∀ b ∈ items, count a ≤ count b → count' a ≤ count' b) :
    Least count' items choice := by
  cases choice with
  | none => exact h
  | some i =>
    exact ⟨h.1, fun o ho => hle i h.1 o ho (h.2 o ho)⟩

theorem Least.map {count : β → Nat} (f : α → β) (h : Least (fun a => count (f a)) items choice) :
    Least count (items.map f) (choice.map f) := by
  cases choice with
  | none => exact map_eq_nil_iff.mpr h
  | some i =>
    refine ⟨mem_map_of_mem h.1, ?_⟩
    intro o ho
    obtain ⟨a, ha, rfl⟩ := mem_map.mp ho
    exact h.2 a ha

theorem Least.or (h : Least count items choice) (h' : Least count items' choice') :
    Least count (if items.isEmpty then items' else items) (choice.or choice') := by
  cases choice with
  | none => rwa [if_pos (isEmpty_iff.mpr h)]
  | some i =>
    rwa [if_neg (fun hem => ne_nil_of_mem h.1 (isEmpty_iff.mp hem))]

end Least

/-! ### Contenders -/

variable {native : NativeLib}

def LeastConnTracker.count (tracker : LeastConnTracker) (index : Nat) : Nat :=
  (tracker.counters[index]?.map Prod.snd).getD 0

theorem LeastConnTracker.least_select (tracker : LeastConnTracker) (admits : Upstream → Bool) :
    Least (fun entry => tracker.count entry.2)
      (tracker.upstreams.zipIdx.filter fun entry => admits entry.1) (tracker.select admits) := by
  have hls : (tracker.upstreams.zipIdx.filter fun entry => admits entry.1) =
      (tracker.counters.zipIdx.filter fun entry => admits entry.1.1).map
        fun entry => (entry.1.1, entry.2) := by
    rw [upstreams, zipIdx_map, filter_map]
    rfl
  rw [hls]
  apply Least.map
  apply (least_argmin (fun entry : (Upstream × Nat) × Nat => entry.1.2) _).mono
  have hc : ∀ entry ∈ tracker.counters.zipIdx.filter fun entry => admits entry.1.1,
      tracker.count entry.2 = entry.1.2 := by
    intro entry he
    rw [count, mem_zipIdx_iff_getElem?.mp (mem_filter.mp he).1]
    rfl
  intro a ha b hb hle
  rwa [hc a ha, hc b hb]

structure Slot where
  backup : Bool
  index : Nat
  deriving DecidableEq

namespace Pool

variable (pool : Pool native)

def counter (index : Nat) : Option (Upstream × Nat) :=
  pool.orderedBackends.bind (·.counters[index]?)

def count (index : Nat) : Nat := ((pool.counter index).map Prod.snd).getD 0

theorem counter_acquire (i other : Nat) :
    (pool.acquire i).counter other =
      if i = other then
        (pool.counter other).map fun entry => (entry.1, (entry.2 + 1) % 2 ^ 64)
      else pool.counter other := by
  rw [counter, counter, acquire]
  cases pool.orderedBackends with
  | none => simp
  | some t =>
    simp only [Option.map_some, Option.bind_some, LeastConnTracker.acquire, List.getElem?_modify]
    split <;> simp

/-- The counts of a new pool are zero. -/
theorem counter_buildPool {backends : List Upstream} {previousHealth : Option BackendHealth}
    {healthCheck : Option HealthCheckSettings} {recovery : SocketAddr → Option Nat} {i : Nat}
    {up : Upstream} {count : Nat}
    (h : (buildPool .leastConn backends previousHealth healthCheck recovery : Pool native).counter
      i = some (up, count)) : count = 0 := by
  simp only [buildPool, counter, Option.bind_some, LeastConnTracker.new, List.getElem?_map,
    Option.map_eq_some_iff, Prod.mk.injEq] at h
  obtain ⟨_, _, _, hc⟩ := h
  exact hc.symm

end Pool

namespace Tier

variable (tier : Tier native .leastConn)

/-- The backends that a selection chooses from, with the positions of their counters: those that
the slow start admits, or if there are none all that can take the request. -/
def contenders (excluded : List SocketAddr) (now : Nat) : List (Upstream × Nat) :=
  let candidates (slowStart : Nat) :=
    (backends tier.tracked).zipIdx.filter fun entry =>
      tier.pool.admits excluded now slowStart entry.1
  if (candidates tier.pool.slowStart).isEmpty then candidates 0
  else candidates tier.pool.slowStart

theorem least_selectLeastConn (excluded : List SocketAddr) (now : Nat) :
    Least (fun entry => tier.pool.count entry.2) (tier.contenders excluded now)
      (tier.pool.selectLeastConn excluded now) := by
  obtain ⟨t, htr, hups⟩ := Option.map_eq_some_iff.mp tier.upstreams_eq
  have hc : tier.pool.count = t.count := by
    funext index
    simp [Pool.count, Pool.counter, htr, LeastConnTracker.count]
  rw [contenders, Pool.selectLeastConn, htr, hc, ← hups]
  exact (t.least_select _).or (t.least_select _)

theorem counter_fromTracked (native : NativeLib) (tracked : List TrackedUpstream) {i : Nat}
    {up : Upstream} {count : Nat}
    (h : (fromTracked tracked : Tier native .leastConn).pool.counter i = some (up, count)) :
    count = 0 :=
  Pool.counter_buildPool h

variable {excluded : List SocketAddr} {now : Nat}

theorem counter_of_mem_contenders {entry : Upstream × Nat}
    (h : entry ∈ tier.contenders excluded now) :
    ∃ count, tier.pool.counter entry.2 = some (entry.1, count) := by
  have he : (backends tier.tracked)[entry.2]? = some entry.1 := by
    rw [contenders] at h
    split at h <;> exact mem_zipIdx_iff_getElem?.mp (mem_filter.mp h).1
  obtain ⟨t, htr, hups⟩ := Option.map_eq_some_iff.mp tier.upstreams_eq
  rw [← hups, LeastConnTracker.upstreams, List.getElem?_map, Option.map_eq_some_iff] at he
  obtain ⟨⟨u, count⟩, hget, rfl⟩ := he
  exact ⟨count, by rw [Pool.counter, htr, Option.bind_some, hget]⟩

def acquire (index : Nat) : Tier native .leastConn where
  tracked := tier.tracked
  healthCheck := tier.healthCheck
  pool := tier.pool.acquire index
  upstreams_eq := (tier.pool.upstreams_acquire index).trans tier.upstreams_eq

theorem select_none (h : tier.pool.selectLeastConn excluded now = none) (key : Option Bytes) :
    tier.select now key excluded = (none, tier) := by
  have hsel : tier.pool.select excluded now .leastConn key = (none, tier.pool) := by
    rw [Pool.select.eq_def, h, Pool.take]
  simp [select, hsel]

theorem select_some {up : Upstream} {i : Nat}
    (h : tier.pool.selectLeastConn excluded now = some (up, i)) (key : Option Bytes) :
    tier.select now key excluded = (some up, tier.acquire i) := by
  have hsel : tier.pool.select excluded now .leastConn key = (some up, tier.pool.acquire i) := by
    rw [Pool.select.eq_def, h, Pool.take]
  simp [select, hsel, acquire]

end Tier

namespace LoadBalancer

variable (balancer : LoadBalancer native .leastConn) (now : Nat) (excluded : List SocketAddr)

def tier (backup : Bool) : Option (Tier native .leastConn) :=
  if backup then balancer.backup else some balancer.primary

def modifyTier (backup : Bool) (f : Tier native .leastConn → Tier native .leastConn) :
    LoadBalancer native .leastConn :=
  if backup then { balancer with backup := balancer.backup.map f }
  else { balancer with primary := f balancer.primary }

def counter (slot : Slot) : Option (Upstream × Nat) :=
  (balancer.tier slot.backup).bind (·.pool.counter slot.index)

def count (slot : Slot) : Nat := ((balancer.counter slot).map Prod.snd).getD 0

def contendersOf (backup : Bool) : List (Upstream × Slot) :=
  (((balancer.tier backup).map (·.contenders excluded now)).getD []).map
    fun entry => (entry.1, ⟨backup, entry.2⟩)

/-- The backends that a selection chooses from, with their counters: those of the primary pool,
or if there are none those of the backup pool. -/
def contenders : List (Upstream × Slot) :=
  if (balancer.contendersOf now excluded false).isEmpty then
    balancer.contendersOf now excluded true
  else balancer.contendersOf now excluded false

def chosenOf (backup : Bool) : Option (Upstream × Slot) :=
  ((balancer.tier backup).bind (·.pool.selectLeastConn excluded now)).map
    fun entry => (entry.1, ⟨backup, entry.2⟩)

def chosen : Option (Upstream × Slot) :=
  (balancer.chosenOf now excluded false).or (balancer.chosenOf now excluded true)

theorem least_chosenOf (backup : Bool) :
    Least (fun entry => balancer.count entry.2) (balancer.contendersOf now excluded backup)
      (balancer.chosenOf now excluded backup) := by
  apply Least.map
  cases htier : balancer.tier backup with
  | none => rfl
  | some tier =>
    have hc : ∀ index, balancer.count ⟨backup, index⟩ = tier.pool.count index := by
      intro index
      rw [count, counter, htier]
      rfl
    simp only [hc]
    exact tier.least_selectLeastConn excluded now

theorem least_chosen :
    Least (fun entry => balancer.count entry.2) (balancer.contenders now excluded)
      (balancer.chosen now excluded) :=
  (balancer.least_chosenOf now excluded false).or (balancer.least_chosenOf now excluded true)

def acquire (slot : Slot) : LoadBalancer native .leastConn :=
  balancer.modifyTier slot.backup (·.acquire slot.index)

/-- A selection counts its choice and changes nothing else. -/
theorem selectExcluding_eq (key : Option Bytes) :
    balancer.selectExcluding now key excluded =
      match balancer.chosen now excluded with
      | none => (none, balancer)
      | some (upstream, slot) => (some upstream, balancer.acquire slot) := by
  obtain ⟨primary, b⟩ := balancer
  rw [selectExcluding]
  cases hpri : primary.pool.selectLeastConn excluded now with
  | some entry =>
    simp [primary.select_some hpri, chosen, chosenOf, tier, hpri, acquire, modifyTier]
  | none =>
    cases b with
    | none => simp [primary.select_none hpri, chosen, chosenOf, tier, hpri]
    | some b =>
      cases hbk : b.pool.selectLeastConn excluded now with
      | none =>
        simp [primary.select_none hpri, b.select_none hbk, chosen, chosenOf, tier, hpri, hbk]
      | some entry =>
        simp [primary.select_none hpri, b.select_some hbk, chosen, chosenOf, tier,
          hpri, hbk, acquire, modifyTier]

theorem tier_modifyTier (backup other : Bool)
    (f : Tier native .leastConn → Tier native .leastConn) :
    (balancer.modifyTier backup f).tier other =
      if other = backup then (balancer.tier other).map f else balancer.tier other := by
  cases backup <;> cases other <;> simp [modifyTier, tier]

variable {f : Tier native .leastConn → Tier native .leastConn}

theorem counter_modifyTier {backup : Bool}
    (h : ∀ tier i, (f tier).pool.counter i = tier.pool.counter i) (slot : Slot) :
    (balancer.modifyTier backup f).counter slot = balancer.counter slot := by
  rw [counter, counter, tier_modifyTier]
  split
  · simp [Option.bind_map, h]
  · rfl

theorem counter_modifyTier_of_ne {backup : Bool} {slot : Slot} (hne : slot.backup ≠ backup) :
    (balancer.modifyTier backup f).counter slot = balancer.counter slot := by
  rw [counter, counter, tier_modifyTier, if_neg hne]

theorem counter_acquire (slot other : Slot) :
    (balancer.acquire slot).counter other =
      if slot = other then
        (balancer.counter other).map fun entry => (entry.1, (entry.2 + 1) % 2 ^ 64)
      else balancer.counter other := by
  obtain ⟨b, i⟩ := slot
  obtain ⟨other, p⟩ := other
  rw [acquire, counter, counter, tier_modifyTier]
  by_cases hbk : other = b
  · cases balancer.tier other with
    | none => simp
    | some tier => simp [Tier.acquire, Pool.counter_acquire, hbk]
  · rw [if_neg hbk, if_neg]
    rintro ⟨⟩
    exact hbk rfl

theorem counter_markFailure (addr : SocketAddr) (pol : PassiveHealth) (slot : Slot) :
    (balancer.markFailure now addr pol).counter slot = balancer.counter slot := by
  rw [counter, counter, tier, tier, markFailure]
  split
  · cases balancer.backup <;> rfl
  · rfl

theorem counter_markResponseFailure (addr : SocketAddr) (pol : PassiveHealth) (slot : Slot) :
    (balancer.markResponseFailure now addr pol).counter slot = balancer.counter slot := by
  rw [markResponseFailure]
  split
  · rfl
  · exact balancer.counter_markFailure now addr pol slot

/-- The counts of a new load balancer are zero. -/
theorem counter_fromTracked {primary : List TrackedUpstream}
    {backup : Option (List TrackedUpstream)} {slot : Slot} {up : Upstream} {count : Nat}
    (h : (fromTracked primary backup : LoadBalancer native .leastConn).counter slot =
      some (up, count)) : count = 0 := by
  rw [counter, tier] at h
  split at h
  · cases backup with
    | none => cases h
    | some backup => exact Tier.counter_fromTracked native backup h
  · exact Tier.counter_fromTracked native primary h

theorem counter_of_mem_contenders {entry : Upstream × Slot}
    (h : entry ∈ balancer.contenders now excluded) :
    ∃ count, balancer.counter entry.2 = some (entry.1, count) := by
  have hof : ∃ backup, entry ∈ balancer.contendersOf now excluded backup := by
    rw [contenders] at h
    split at h <;> exact ⟨_, h⟩
  obtain ⟨backup, hmem⟩ := hof
  obtain ⟨i, hit, rfl⟩ := mem_map.mp hmem
  cases htier : balancer.tier backup with
  | none =>
    rw [htier] at hit
    cases hit
  | some tier =>
    rw [htier] at hit
    obtain ⟨count, hc⟩ := tier.counter_of_mem_contenders hit
    exact ⟨count, by rw [counter, htier, Option.bind_some, hc]⟩

end LoadBalancer

/-- A request that a backend was selected for. It remembers its counter for as long as the pool
of that is in use. -/
structure Request where
  addr : BackendAddr
  slot : Option Slot
  completed : Bool

def Request.detach (backup : Bool) (request : Request) : Request :=
  if request.slot.any (·.backup == backup) then { request with slot := none } else request

@[simp] theorem Request.addr_detach (backup : Bool) (request : Request) :
    (request.detach backup).addr = request.addr := by
  rw [detach]
  split <;> rfl

theorem Request.slot_detach {backup : Bool} {request : Request} {slot : Slot} :
    (request.detach backup).slot = some slot ↔ request.slot = some slot ∧ slot.backup ≠ backup := by
  rw [detach]
  cases hslot : request.slot with
  | none => simp [hslot]
  | some own =>
    by_cases hbk : own.backup = backup
    · simp only [Option.any_some, hbk, beq_self_eq_true, if_true]
      constructor
      · rintro ⟨⟩
      · rintro ⟨⟨⟩, hne⟩
        exact absurd hbk hne
    · simp only [Option.any_some, beq_iff_eq, hbk, if_false, hslot]
      constructor
      · rintro ⟨⟩
        exact ⟨rfl, hbk⟩
      · exact And.left

def Request.complete (request : Request) : Request := { request with completed := true }

structure ConnRun (native : NativeLib) where
  balancer : LoadBalancer native .leastConn
  requests : List Request

inductive ConnEvent where
  | select (now : Nat) (key : Option Bytes) (excluded : List SocketAddr)
  | complete (index : Nat)
  | publish (backup : Bool) (tracked : List TrackedUpstream)
  | setHealthCheck (backup : Bool) (settings : HealthCheckSettings)
  | probed (backup : Bool) (ready : Upstream → Bool) (recovery : SocketAddr → Option Nat)
  | markFailure (now : Nat) (addr : SocketAddr) (policy : PassiveHealth)
  | markResponseFailure (now : Nat) (addr : SocketAddr) (policy : PassiveHealth)

namespace ConnRun

def select (run : ConnRun native) (now : Nat) (key : Option Bytes) (excluded : List SocketAddr) :
    ConnRun native :=
  let (upstream, balancer) := run.balancer.selectExcluding now key excluded
  let slot := (run.balancer.chosen now excluded).map Prod.snd
  let requests := upstream.toList.map fun upstream => ⟨upstream.addr, slot, false⟩
  ⟨balancer, run.requests ++ requests⟩

def replace (run : ConnRun native) (backup : Bool)
    (f : Tier native .leastConn → Tier native .leastConn) : ConnRun native :=
  ⟨run.balancer.modifyTier backup f, run.requests.map (·.detach backup)⟩

/-- The load balancer is not told of a request that completes. -/
def step (run : ConnRun native) : ConnEvent → ConnRun native
  | .select now key excluded => run.select now key excluded
  | .complete index => { run with requests := run.requests.modify index Request.complete }
  | .publish backup tracked => run.replace backup (·.publish tracked)
  | .setHealthCheck backup settings => run.replace backup (·.setHealthCheck settings)
  | .probed backup ready recovery =>
    { run with balancer := run.balancer.modifyTier backup (·.probed ready recovery) }
  | .markFailure now addr policy =>
    { run with balancer := run.balancer.markFailure now addr policy }
  | .markResponseFailure now addr policy =>
    { run with balancer := run.balancer.markResponseFailure now addr policy }

end ConnRun

def leastConn (native : NativeLib) (primary : List TrackedUpstream)
    (backup : Option (List TrackedUpstream)) : Machine (ConnRun native) ConnEvent where
  start := ⟨.fromTracked primary backup, []⟩
  step := ConnRun.step

namespace ConnRun

variable (run : ConnRun native)

def inFlight (addr : BackendAddr) : Nat :=
  run.requests.countP fun request => request.addr = addr && !request.completed

/-- The completed requests that a counter still counts. -/
def settled (slot : Slot) : Nat :=
  run.requests.countP fun request => request.slot = some slot && request.completed

/-- The open requests for a backend that its counter does not count: those of an earlier pool, or
of another entry of the same address. -/
def uncounted (addr : BackendAddr) (slot : Slot) : Nat :=
  run.requests.countP fun request =>
    request.addr = addr && !request.completed && request.slot ≠ some slot

/-- The counts of all contenders are off by the same. -/
def Balanced (now : Nat) (excluded : List SocketAddr) : Prop :=
  ∀ a ∈ run.balancer.contenders now excluded, ∀ b ∈ run.balancer.contenders now excluded,
    run.settled a.2 + run.uncounted b.1.addr b.2 = run.settled b.2 + run.uncounted a.1.addr a.2

/-- Every count is the number of requests that remember the counter, all of them for the backend
of the counter. -/
def Counted : Prop :=
  ∀ slot upstream count, run.balancer.counter slot = some (upstream, count) →
    count = (run.requests.countP fun request => request.slot = some slot) % 2 ^ 64 ∧
      ∀ request ∈ run.requests, request.slot = some slot → request.addr = upstream.addr

variable {run}

/-! ### What a step does to the counts -/

theorem Counted.congr (h : run.Counted) {after : ConnRun native}
    (hctr : ∀ slot, after.balancer.counter slot = run.balancer.counter slot)
    (hrequests : after.requests.map (fun request => (request.addr, request.slot)) =
      run.requests.map fun request => (request.addr, request.slot)) : after.Counted := by
  intro slot u count hslot
  rw [hctr] at hslot
  obtain ⟨hc, had⟩ := h slot u count hslot
  constructor
  · have hcountP := congrArg (List.countP fun mark => mark.2 = some slot) hrequests
    rw [countP_map, countP_map] at hcountP
    rw [hc]
    exact congrArg (· % 2 ^ 64) hcountP.symm
  · intro request hreq hmk
    have hmem : (request.addr, request.slot) ∈
        run.requests.map fun request => (request.addr, request.slot) :=
      hrequests ▸ mem_map_of_mem hreq
    obtain ⟨before, hb, heq⟩ := mem_map.mp hmem
    obtain ⟨heqAddr, heqSlot⟩ := Prod.mk.inj heq
    rw [← heqAddr]
    exact had before hb (heqSlot.trans hmk)

theorem Counted.replace (h : run.Counted) (backup : Bool)
    {f : Tier native .leastConn → Tier native .leastConn}
    (hf : ∀ tier i up count, (f tier).pool.counter i = some (up, count) → count = 0) :
    (run.replace backup f).Counted := by
  intro slot up count hslot
  rw [ConnRun.replace] at hslot ⊢
  by_cases hbk : slot.backup = backup
  · -- A counter of the new pool: it is zero and no request remembers it.
    have hz : count = 0 := by
      rw [LoadBalancer.counter, LoadBalancer.tier_modifyTier, if_pos hbk, Option.bind_map,
        Option.bind_eq_some_iff] at hslot
      obtain ⟨tier, _, hctr⟩ := hslot
      exact hf tier slot.index up count hctr
    have hnone : ∀ request ∈ run.requests.map (·.detach backup), request.slot ≠ some slot := by
      intro request hreq hmk
      obtain ⟨before, _, rfl⟩ := mem_map.mp hreq
      exact (Request.slot_detach.mp hmk).2 hbk
    refine ⟨?_, fun request hreq hmk => absurd hmk (hnone request hreq)⟩
    have hcountP := countP_eq_zero.mpr fun request hreq =>
      decide_eq_true_iff.not.mpr (hnone request hreq)
    simp [hz, hcountP]
  · rw [LoadBalancer.counter_modifyTier_of_ne _ hbk] at hslot
    obtain ⟨hc, had⟩ := h slot up count hslot
    constructor
    · rw [hc, countP_map]
      refine congrArg (· % 2 ^ 64) (countP_congr fun request _ => ?_)
      simp [Request.slot_detach, hbk]
    · intro request hreq hmk
      obtain ⟨before, hb, rfl⟩ := mem_map.mp hreq
      rw [Request.addr_detach]
      exact had before hb (Request.slot_detach.mp hmk).1

theorem Counted.select (h : run.Counted) (now : Nat) (key : Option Bytes)
    (excluded : List SocketAddr) : (run.select now key excluded).Counted := by
  have hleast := run.balancer.least_chosen now excluded
  rw [ConnRun.select, LoadBalancer.selectExcluding_eq]
  cases hcho : run.balancer.chosen now excluded with
  | none =>
    exact h.congr (fun _ => rfl) (by simp)
  | some entry =>
    obtain ⟨up, slot⟩ := entry
    rw [hcho] at hleast
    obtain ⟨count, hctr⟩ := run.balancer.counter_of_mem_contenders now excluded hleast.1
    intro o otherUpstream otherCount ho
    rw [LoadBalancer.counter_acquire] at ho
    by_cases hslot : slot = o
    · subst hslot
      obtain ⟨hcnt, haddr⟩ := h slot up count hctr
      rw [if_pos rfl, hctr] at ho
      cases ho
      constructor
      · rw [hcnt, Nat.mod_add_mod]
        simp
      · intro request hreq hmark
        rcases mem_append.mp hreq with hold | hnew
        · exact haddr request hold hmark
        · rw [mem_singleton.mp hnew]
    · rw [if_neg hslot] at ho
      obtain ⟨hcnt, haddr⟩ := h o otherUpstream otherCount ho
      constructor
      · rw [hcnt]
        simp [hslot]
      · intro request hreq hmark
        rcases mem_append.mp hreq with hold | hnew
        · exact haddr request hold hmark
        · rw [mem_singleton.mp hnew] at hmark
          exact absurd (Option.some.inj hmark) hslot

theorem Counted.step (h : run.Counted) (ev : ConnEvent) : (run.step ev).Counted := by
  cases ev with
  | select now key e => exact h.select now key e
  | complete i => exact h.congr (fun _ => rfl) (map_modify_of_eq (by intro; rfl) _ _)
  | publish b t =>
    exact h.replace b fun _ _ _ _ hctr => Pool.counter_buildPool hctr
  | setHealthCheck b settings =>
    exact h.replace b fun _ _ _ _ hctr => Pool.counter_buildPool hctr
  | probed b r rc =>
    exact h.congr (run.balancer.counter_modifyTier fun _ _ => rfl) rfl
  | markFailure now a p =>
    exact h.congr (run.balancer.counter_markFailure now a p) rfl
  | markResponseFailure now a p =>
    exact h.congr (run.balancer.counter_markResponseFailure now a p) rfl

/-- A count is off by the completed requests that it has and the open ones that it has not. -/
theorem Counted.count_add (h : run.Counted) (hlen : run.requests.length < 2 ^ 64) {slot : Slot}
    {up : Upstream} {count : Nat} (hctr : run.balancer.counter slot = some (up, count)) :
    count + run.uncounted up.addr slot = run.settled slot + run.inFlight up.addr := by
  obtain ⟨hc, had⟩ := h slot up count hctr
  have hsma : (run.requests.countP fun request => request.slot = some slot) < 2 ^ 64 :=
    Nat.lt_of_le_of_lt countP_le_length hlen
  have hslot := run.requests.countP_split (fun request => request.slot = some slot)
    (fun request => request.completed)
  have hop := run.requests.countP_split
    (fun request => request.addr = up.addr && !request.completed)
    (fun request => request.slot = some slot)
  -- The open requests of the counter are all for its backend.
  have how : (run.requests.countP fun request =>
        request.addr = up.addr && !request.completed && decide (request.slot = some slot)) =
      run.requests.countP fun request =>
        decide (request.slot = some slot) && !request.completed := by
    refine countP_congr fun request hreq => ?_
    simp only [Bool.and_eq_true, decide_eq_true_eq]
    tauto
  simp only [uncounted, settled, inFlight, decide_not]
  omega

theorem counted_of_reachable {primary : List TrackedUpstream}
    {backup : Option (List TrackedUpstream)} {allowed : ConnRun native → ConnEvent → Prop}
    (h : (leastConn native primary backup).Reachable allowed run) : run.Counted := by
  refine h.invariant (I := Counted) ?_ fun _ e hcntd _ => hcntd.step e
  intro s u count hslot
  have hz : count = 0 := LoadBalancer.counter_fromTracked hslot
  exact ⟨hz, fun request hreq => by cases hreq⟩

/-- In every run, a selection takes one of the contenders with the fewest open requests, and
finds none only if there is no contender, whenever the counts of the contenders are off by the
same: by the completed requests that they count, less the open requests that they do not. -/
theorem selectExcluding_least {primary : List TrackedUpstream}
    {backup : Option (List TrackedUpstream)} {now : Nat} {excluded : List SocketAddr}
    (h : (leastConn native primary backup).Reachable (fun _ _ => True) run)
    (hlength : run.requests.length < 2 ^ 64) (hbalanced : run.Balanced now excluded)
    (key : Option Bytes) :
    Least (fun upstream => run.inFlight upstream.addr)
      ((run.balancer.contenders now excluded).map Prod.fst)
      (run.balancer.selectExcluding now key excluded).1 := by
  have hcntd := counted_of_reachable h
  have hcho : (run.balancer.selectExcluding now key excluded).1 =
      (run.balancer.chosen now excluded).map Prod.fst := by
    rw [LoadBalancer.selectExcluding_eq]
    cases run.balancer.chosen now excluded <;> rfl
  rw [hcho]
  apply Least.map
  apply (run.balancer.least_chosen now excluded).mono
  intro a ha b hb hle
  obtain ⟨c, hcounterA⟩ := run.balancer.counter_of_mem_contenders now excluded ha
  obtain ⟨cn, hcounterB⟩ := run.balancer.counter_of_mem_contenders now excluded hb
  have hoff := hbalanced a ha b hb
  have hA := hcntd.count_add hlength hcounterA
  have hB := hcntd.count_add hlength hcounterB
  simp only [LoadBalancer.count, hcounterA, hcounterB, Option.map_some, Option.getD_some] at hle
  omega

open LoadBalancer (inOrder sampleBackend)

def pair : Machine (ConnRun inOrder) ConnEvent :=
  leastConn inOrder [⟨1, some (sampleBackend 1)⟩, ⟨1, some (sampleBackend 2)⟩] none

instance (run : ConnRun native) (now : Nat) (excluded : List SocketAddr) :
    Decidable (run.Balanced now excluded) :=
  inferInstanceAs (Decidable (∀ a ∈ run.balancer.contenders now excluded,
    ∀ b ∈ run.balancer.contenders now excluded,
      run.settled a.2 + run.uncounted b.1.addr b.2 = run.settled b.2 + run.uncounted a.1.addr a.2))

/-- The first backend has a request, the second is selected. -/
theorem selectExcluding_least_pair :
    ∃ run : ConnRun inOrder, (run.balancer.selectExcluding 0 none []).1 = some (sampleBackend 2) ∧
      Least (fun upstream => run.inFlight upstream.addr)
        ((run.balancer.contenders 0 []).map Prod.fst)
        (run.balancer.selectExcluding 0 none []).1 :=
  ⟨pair.run [.select 0 none []], by decide,
    selectExcluding_least (Machine.reachable_run (by decide)) (by decide) (by decide) none⟩

/-- Both backends have had a request and that of the second has completed, but the first is
selected. -/
theorem not_least_of_completed :
    ∃ run, pair.Reachable (fun _ _ => True) run ∧
      ¬ Least (fun upstream => run.inFlight upstream.addr)
        ((run.balancer.contenders 0 []).map Prod.fst)
        (run.balancer.selectExcluding 0 none []).1 :=
  ⟨pair.run [.select 0 none [], .select 0 none [], .complete 1],
    Machine.reachable_run (by decide), by decide⟩

end ConnRun

end Pingclair
