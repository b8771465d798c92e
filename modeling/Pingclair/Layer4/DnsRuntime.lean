import Pingclair.Lib.ByteText
import Pingclair.Lib.Durations
import Pingclair.Lib.Revocable

/-!
# Dynamic upstream pools

Each layer-4 route that takes its upstream addresses from DNS has a pool, which holds the snapshot
of addresses that new connections dial. A reload prepares a draft of pools, which keeps those in use
whose whole policy is the same, and publishes it; one runs at a time. One coordinator starts the
lookups whose time has come and applies the results; when it stops it revokes all active pools.

The holder of the lock has a list of tasks, `critical`, and takes them one atomic step at a time. A
step of another party may come between any two tasks. A pool is named by its place in the list of
all pools ever made. Instants are nanoseconds of a clock whose seconds are an `i64`.
-/

namespace Pingclair.Dns

open ByteText

inductive Layer4IpVersions
  | ipv4
  | ipv6
  | ip
  deriving DecidableEq

structure Layer4Dns where
  name : Bytes
  port : Nat
  resolvers : Option (List Bytes)
  versions : Layer4IpVersions
  validMs : Option Nat
  staleMs : Nat
  allowIp : Option (List Bytes)
  deriving DecidableEq

structure Endpoint (A : Type) where
  address : A
  tcp : Bool
  bind : Option A
  deriving DecidableEq

inductive Failure
  | empty
  | nxDomain
  | transient
  | timeout
  | invalid
  | cancelled
  deriving DecidableEq

structure Answer (A : Type) where
  addresses : List A
  fresh : Nat

structure Snapshot (A : Type) where
  addresses : List A
  fresh : Nat
  hard : Nat

/-- A pool. Beside the fields of the source it counts the lookups that were started, and has the
step at which a publication was through with revoking it. -/
structure Pool (A : Type) where
  config : Layer4Dns
  own : List A
  endpoints : List (Endpoint A)
  permits : A → Bool
  snapshot : Revocable (Snapshot A)
  cursor : Nat
  cancel : Bool
  starts : Nat
  removed : Option Nat

/-- What the preparation of a draft relies on: how it orders the addresses of its own listeners,
and the policy of allowed ranges and own addresses, unless a range is not valid. -/
structure PolicyLib (A : Type) where
  canonical : List A → List A
  prepare : Option (List Bytes) → List A → Option (A → Bool)

/-- What the holder of the lock has still to do. -/
inductive Task (A : Type)
  /-- Revoke a pool: first its snapshot goes. -/
  | revoke (pool : Nat)
  /-- Then its epoch moves on. -/
  | advance (pool : Nat)
  | store (pool : Nat) (snapshot : Snapshot A)
  /-- Schedule the next lookup; `fresh` is the deadline of a snapshot that was just stored. -/
  | finish (pool : Nat) (fresh : Option Nat)

structure Draft (A : Type) where
  previous : List Nat
  pools : List Nat
  own : List A

structure Entry where
  pool : Nat
  next : Nat
  lastStart : Option Nat
  /-- There is a handle to cancel a lookup with, so one is under way. -/
  cancel : Bool
  failures : Nat

/-- Where the coordinator is in its loop. -/
inductive Phase
  | idle
  | looking
  /-- The entries are those of the active pools. -/
  | looked
  /-- In the loop over the entries, at an offset, with the time taken before it. -/
  | scanning (now offset : Nat)
  | waiting
  | completing
  | stopped

/-- The coordinator goes on when it has applied a result. -/
def Phase.resume : Phase → Phase
  | .completing => .looking
  | phase => phase

/-- All of the state but the connections. -/
structure Runtime (A : Type) where
  pools : List (Pool A)
  active : List Nat
  /-- How many times `active` was exchanged, which tells one published list from another. -/
  publications : Nat
  draft : Option (Draft A)
  /-- A publication has notified the coordinator, which has not seen to it yet. -/
  changed : Bool
  critical : List (Task A)
  entries : List Entry
  seen : Nat
  cursor : Nat
  jitter : UInt64
  jobs : List Nat
  phase : Phase
  /-- The deadline of the metrics, as the last scan read it. -/
  metricsDeadline : Option Nat
  wake : Nat
  now : Nat
  steps : Nat

variable {A : Type}

def millis (ms : Nat) : Nat := ms * 10 ^ 6

def instantEnd : Nat := 2 ^ 63 * nanosPerSecond

/-- What the result of a lookup does to a pool: the tasks, and the deadline of a new snapshot. -/
def Pool.apply (pool : Pool A) (id now : Nat) :
    Except Failure (Answer A) → List (Task A) × Option Nat
  | .ok answer =>
    if answer.addresses.any fun address => !pool.permits address then ([.revoke id], none)
    else
      let fresh := match pool.config.validMs with
        | some valid => now + millis valid
        | none => answer.fresh
      let snapshot := ⟨answer.addresses, fresh, fresh + millis pool.config.staleMs⟩
      ([.store id snapshot], some fresh)
  | .error .empty | .error .nxDomain | .error .invalid | .error .cancelled => ([.revoke id], none)
  | .error .transient | .error .timeout => ([], none)

def Pool.clear (pool : Pool A) : Pool A := { pool with snapshot := pool.snapshot.clear }

/-- The second step of a revocation. A pool that is revoked while it is not active was removed. -/
def Pool.advance (pool : Pool A) (time : Nat) (active : Bool) : Pool A :=
  { pool with
    snapshot := pool.snapshot.advance time
    removed := if active then pool.removed else some time }

def Pool.store (pool : Pool A) (time : Nat) (snapshot : Snapshot A) : Pool A :=
  { pool with snapshot := pool.snapshot.store time snapshot }

def Pool.start (pool : Pool A) : Pool A := { pool with cancel := true, starts := pool.starts + 1 }

def Pool.new (config : Layer4Dns) (own : List A) (endpoints : List (Endpoint A))
    (permits : A → Bool) : Pool A :=
  { config, own, endpoints, permits, snapshot := .empty, cursor := 0, cancel := false
    starts := 0, removed := none }

def Entry.new (pool now : Nat) (cancel : Bool) : Entry :=
  { pool, next := now, lastStart := if cancel then some now else none, cancel, failures := 0 }

def Entry.start (entry : Entry) (now : Nat) : Entry :=
  { entry with cancel := true, lastStart := some now }

def addEntries (new : Nat → Entry) (entries : List Entry) (ids : List Nat) : List Entry :=
  ids.foldl (fun entries id =>
    if entries.any fun entry => entry.pool = id then entries else entries ++ [new id]) entries

/-- One turn of the generator behind the jitter. -/
def nextJitter (jitter : UInt64) : UInt64 :=
  let jitter := jitter ^^^ (jitter <<< 13)
  let jitter := jitter ^^^ (jitter >>> 7)
  jitter ^^^ (jitter <<< 17)

def backoff (failures : Nat) (jitter : UInt64) : Nat :=
  2 ^ min failures 5 * nanosPerSecond + millis (jitter.toNat % 1000)

/-- The entry after its lookup. The next one starts at least a second after the last. -/
def Entry.finish (entry : Entry) (now : Nat) (jitter : UInt64) (fresh : Option Nat) : Entry :=
  let earliest := entry.lastStart.getD 0 + nanosPerSecond
  match fresh with
  | some fresh => { entry with cancel := false, failures := 0, next := max fresh earliest }
  | none =>
    { entry with
      cancel := false
      failures := min (entry.failures + 1) 255
      next := max (now + backoff entry.failures jitter) earliest }

namespace Runtime

def modifyPool (r : Runtime A) (id : Nat) (f : Pool A → Pool A) : Runtime A :=
  { r with pools := r.pools.modify id f }

/-- A reload starts from the active pools. -/
def prepare (lib : PolicyLib A) (r : Runtime A) (own : List A) : Runtime A :=
  match r.draft with
  | some _ => r
  | none => { r with draft := some ⟨r.active, [], lib.canonical own⟩ }

def reusable [DecidableEq A] (r : Runtime A) (draft : Draft A) (config : Layer4Dns)
    (endpoints : List (Endpoint A)) (id : Nat) : Bool :=
  r.pools[id]?.any fun pool =>
    pool.config = config ∧ pool.own = draft.own ∧ pool.endpoints = endpoints

def addPool (r : Runtime A) (draft : Draft A) (pool : Pool A) : Runtime A :=
  { r with
    pools := r.pools ++ [pool]
    draft := some { draft with pools := draft.pools ++ [r.pools.length] } }

/-- A source of the draft. `endpoints` are the resolvers of its configuration, unless they cannot
be had. -/
def source [DecidableEq A] (lib : PolicyLib A) (r : Runtime A) (config : Layer4Dns)
    (endpoints : Option (List (Endpoint A))) : Runtime A :=
  match r.draft, endpoints with
  | some draft, some endpoints =>
    if draft.pools.any fun id => r.pools[id]?.any fun pool => pool.config = config then r
    else if draft.pools.length = 256 then r
    else
      match draft.previous.find? (r.reusable draft config endpoints) with
      | some id => { r with draft := some { draft with pools := draft.pools ++ [id] } }
      | none =>
        match lib.prepare config.allowIp draft.own with
        | some permits => r.addPool draft (.new config draft.own endpoints permits)
        | none => r
  | _, _ => r

/-- The draft becomes active, and the pools that it does not have are revoked. When that is done the
coordinator is notified. -/
def publish (r : Runtime A) : Runtime A :=
  match r.critical, r.draft with
  | [], some draft =>
    let removed := r.active.filter fun id => !draft.pools.contains id
    { r with
      active := draft.pools
      publications := r.publications + 1
      draft := none
      changed := r.changed || removed.isEmpty
      critical := removed.map .revoke }
  | _, _ => r

/-- The top of the loop: entries for the active pools, and for no others. -/
def look (r : Runtime A) : Runtime A :=
  if r.seen ≠ r.publications ∨ r.entries.length ≠ r.active.length then
    let retained := r.entries.filter fun entry => r.active.contains entry.pool
    let new := fun id => .new id r.now (r.pools[id]?.any (·.cancel))
    { r with entries := addEntries new retained r.active, seen := r.publications, phase := .looked }
  else { r with phase := .looked }

/-- A lookup starts for the pool of the entry at a position. -/
def startJob (r : Runtime A) (index id now : Nat) : Runtime A :=
  { r.modifyPool id Pool.start with
    entries := r.entries.modify index (·.start now)
    jobs := r.jobs ++ [id] }

/-- When the coordinator wakes up, if nothing else happens. -/
def wakeAt (r : Runtime A) (now : Nat) (metricsDeadline : Option Nat) : Nat :=
  let wake :=
    if r.jobs.length < 8 then
      ((r.entries.filter fun entry => !entry.cancel).map Entry.next).min?.getD
        (now + 3600 * nanosPerSecond)
    else now + 3600 * nanosPerSecond
  match metricsDeadline with
  | some deadline => min wake deadline
  | none => wake

/-- One turn of the loop over the entries. It waits where the lock is taken. -/
def turn (r : Runtime A) (now offset : Nat) : Runtime A :=
  let index := (r.cursor + offset) % r.entries.length
  match r.entries[index]? with
  | some entry =>
    if offset < r.entries.length ∧ r.jobs.length ≠ 8 then
      if entry.cancel = false ∧ entry.next ≤ now then
        if r.critical.isEmpty then
          if r.active.contains entry.pool then
            { r.startJob index entry.pool now with phase := .scanning now (offset + 1) }
          else { r with phase := .scanning now (offset + 1) }
        else r
      else { r with phase := .scanning now (offset + 1) }
    else
      { r with
        cursor := (r.cursor + 1) % r.entries.length
        wake := r.wakeAt now r.metricsDeadline
        phase := .waiting }
  | none => { r with wake := r.wakeAt now r.metricsDeadline, phase := .waiting }

def takeCancel (r : Runtime A) (id : Nat) : Runtime A :=
  r.modifyPool id fun pool => { pool with cancel := false }

def complete (r : Runtime A) (id : Nat) (result : Except Failure (Answer A)) : Runtime A :=
  match r.phase, r.critical, r.pools[id]? with
  | .waiting, [], some pool =>
    if id ∈ r.jobs then
      let r := { r.takeCancel id with jobs := r.jobs.erase id }
      if (r.entries.any fun entry => entry.pool = id) ∧ id ∈ r.active then
        { r with
          critical := (pool.apply id r.now result).1 ++ [.finish id (pool.apply id r.now result).2]
          phase := .completing }
      else { r with phase := .looking }
    else r
  | _, _, _ => r

/-- The coordinator ends, and revokes all active pools. -/
def stop (r : Runtime A) : Runtime A :=
  match r.phase, r.critical with
  | .waiting, [] => { r with critical := r.active.map .revoke, phase := .stopped }
  | _, _ => r

/-- The worker of a lookup failed, which ends the coordinator. -/
def fail (r : Runtime A) (id : Nat) : Runtime A :=
  match r.phase, r.critical with
  | .waiting, [] =>
    if id ∈ r.jobs then { r with jobs := r.jobs.erase id }.stop else r
  | _, _ => r

/-- The end waits for the lookups under way, and drops their results. -/
def drain (r : Runtime A) (id : Nat) : Runtime A :=
  match r.phase, r.critical with
  | .stopped, [] =>
    { r.takeCancel id with jobs := r.jobs.erase id }
  | _, _ => r

def task (r : Runtime A) : Runtime A :=
  match r.critical with
  | [] => r
  | .revoke id :: rest => { r.modifyPool id Pool.clear with critical := .advance id :: rest }
  | .advance id :: rest =>
    -- only a publication ends here, or the shutdown, after which nobody listens
    { r.modifyPool id (·.advance r.steps (r.active.contains id)) with
      critical := rest
      changed := r.changed || rest.isEmpty }
  | .store id snapshot :: rest =>
    { r.modifyPool id (·.store r.steps snapshot) with critical := rest }
  | .finish id fresh :: rest =>
    let jitter := if fresh.isSome then r.jitter else nextJitter r.jitter
    { r with
      entries := r.entries.modify (r.entries.findIdx (·.pool = id)) (·.finish r.now jitter fresh)
      jitter
      critical := rest
      phase := r.phase.resume }

end Runtime

/-- The steps of all parties but the connections. -/
inductive Event (A : Type)
  | tick (duration : Nat)
  | prepare (own : List A)
  | source (config : Layer4Dns) (endpoints : Option (List (Endpoint A)))
  | abandon
  | publish
  | run
  | look
  | scan (metricsDeadline : Option Nat)
  | turn
  | wake
  | complete (id : Nat) (result : Except Failure (Answer A))
  | fail (id : Nat)
  | stop
  | drain (id : Nat)
  | task

/-- One step. A step that its party cannot take changes nothing. -/
def Runtime.act [DecidableEq A] (lib : PolicyLib A) (r : Runtime A) : Event A → Runtime A
  | .tick duration =>
    if r.now + duration < instantEnd then { r with now := r.now + duration } else r
  | .prepare own => r.prepare lib own
  | .source config endpoints => r.source lib config endpoints
  | .abandon => { r with draft := none }
  | .publish => r.publish
  | .run =>
    match r.phase with
    | .idle => { r with seen := r.publications, phase := .looking }
    | _ => r
  | .look =>
    match r.phase with
    | .looking => r.look
    | _ => r
  | .scan metricsDeadline =>
    match r.phase with
    | .looked => { r with phase := .scanning r.now 0, metricsDeadline }
    | _ => r
  | .turn =>
    match r.phase with
    | .scanning now offset => r.turn now offset
    | _ => r
  | .wake =>
    match r.phase with
    | .waiting =>
      if r.changed then { r with phase := .looking, changed := false }
      else if r.wake ≤ r.now then { r with phase := .looking }
      else r
    | _ => r
  | .complete id result => r.complete id result
  | .fail id => r.fail id
  | .stop => r.stop
  | .drain id => r.drain id
  | .task => r.task

def Runtime.step [DecidableEq A] (lib : PolicyLib A) (r : Runtime A) (event : Event A) :
    Runtime A :=
  { r.act lib event with steps := r.steps + 1 }

def Runtime.start (now : Fin instantEnd) : Runtime A :=
  { pools := [], active := [], publications := 0, draft := none, changed := false, critical := []
    entries := [], seen := 0, cursor := 0, jitter := 0x4c345f444e535f31, jobs := []
    phase := .idle, metricsDeadline := none, wake := 0, now := now.val, steps := 0 }

end Pingclair.Dns
