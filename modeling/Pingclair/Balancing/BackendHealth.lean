import Pingclair.Lib.ByteText
import Pingclair.Lib.Durations

/-!
# Passive backend health

Failures are counted per address in a window that starts with the latest one. So many of them mark
the address down until a point in time. A backend behind a unix socket has no address and is always
up. Times are milliseconds, one reading of the clock for each call.
-/

namespace Pingclair

open ByteText

inductive SocketAddr where
  | v4 (octets : Vector UInt8 4) (port : UInt16)
  | v6 (segments : Vector UInt16 8) (port : UInt16) (flowinfo scopeId : UInt32)
  deriving DecidableEq

inductive BackendAddr where
  | inet (addr : SocketAddr)
  | unix (path : Bytes)
  deriving DecidableEq

structure Upstream where
  addr : BackendAddr
  weight : Nat
  deriving DecidableEq

def inetAddress (backend : Upstream) : Option SocketAddr :=
  match backend.addr with
  | .inet addr => some addr
  | .unix _ => none

structure FailureWindow where
  count : Nat
  lastMs : Nat

/-- The count with one more failure. One older than the window starts a new count. -/
def FailureWindow.next (slot : FailureWindow) (now window : Nat) : Nat :=
  if now - slot.lastMs > asMillis window then 1 else min (slot.count + 1) u32Max

/-- How a route takes failures; without a window it does not remember any. -/
structure PassiveHealth where
  maxFails : Nat
  window : Option Nat

def failCooldown : Nat := 10 * nanosPerSecond

def PassiveHealth.default : PassiveHealth := ⟨1, some failCooldown⟩

/-- The entries of some addresses, those of a previous map where it has them. -/
def carried {α : Type} (previous : SocketAddr → Option α) (fresh : α) (addrs : List SocketAddr) :
    SocketAddr → Option α :=
  fun addr => if addr ∈ addrs then some ((previous addr).getD fresh) else none

/-- The marks of the addresses of a pool. Both maps have the same addresses. -/
structure BackendHealth where
  downUntil : SocketAddr → Option Nat
  failures : SocketAddr → Option FailureWindow
  isSome_eq : ∀ addr, (downUntil addr).isSome = (failures addr).isSome

namespace BackendHealth

variable (health : BackendHealth) (now : Nat)

/-- The marks for a new list of backends. Those of addresses that stay are kept. -/
def rebuilt (previous : Option BackendHealth) (addrs : List SocketAddr) : BackendHealth where
  downUntil := carried (fun addr => previous.bind (·.downUntil addr)) 0 addrs
  failures := carried (fun addr => previous.bind (·.failures addr)) ⟨0, 0⟩ addrs
  isSome_eq addr := by
    rw [carried, carried]
    split <;> rfl

def markDownFor (addr : SocketAddr) (cooldown : Nat) : BackendHealth where
  downUntil := Function.update health.downUntil addr
    ((health.downUntil addr).map (max · ((now + asMillis cooldown) % 2 ^ 64)))
  failures := health.failures
  isSome_eq other := by
    rw [Function.update_apply]
    split
    · next h => rw [Option.isSome_map, h, health.isSome_eq]
    · exact health.isSome_eq other

def setFailures (addr : SocketAddr) (window : FailureWindow) : BackendHealth where
  downUntil := health.downUntil
  failures := Function.update health.failures addr ((health.failures addr).map fun _ => window)
  isSome_eq other := by
    rw [Function.update_apply]
    split
    · next h => rw [Option.isSome_map, h, health.isSome_eq]
    · exact health.isSome_eq other

/-- Counts a failure. The count that reaches `max_fails` marks the address down and starts
over. -/
def markFailure (addr : SocketAddr) (policy : PassiveHealth) : BackendHealth :=
  match policy.window with
  | none => health
  | some window =>
    match health.failures addr with
    | none => health
    | some slot =>
      let count := slot.next now window
      let counted := health.setFailures addr ⟨count, now⟩
      if count ≥ max policy.maxFails 1 then
        (counted.markDownFor now addr window).setFailures addr ⟨0, now⟩
      else counted

def isUp (addr : SocketAddr) : Bool :=
  match health.downUntil addr with
  | some slot => slot ≤ now
  | none => true

def isUpBackend (backend : Upstream) : Bool := (inetAddress backend).all (health.isUp now)

/-- A failure of the address at this moment marks it down for longer than the moment. -/
def tips (addr : SocketAddr) (policy : PassiveHealth) : Bool :=
  policy.window.any fun window =>
    (health.failures addr).any fun slot =>
      max policy.maxFails 1 ≤ slot.next now window && now < (now + asMillis window) % 2 ^ 64

variable {health now} {addr other : SocketAddr} {policy : PassiveHealth}

@[simp] theorem isUp_setFailures (window : FailureWindow) :
    (health.setFailures addr window).isUp now other = health.isUp now other := rfl

theorem isUp_markDownFor_of_ne (hne : other ≠ addr) (cooldown : Nat) :
    (health.markDownFor now addr cooldown).isUp now other = health.isUp now other := by
  rw [isUp, isUp, markDownFor]
  dsimp only
  rw [Function.update_of_ne hne]

theorem isUp_markDownFor_self (had : (health.failures addr).isSome) (cooldown : Nat) :
    (health.markDownFor now addr cooldown).isUp now addr =
      (health.isUp now addr && !decide (now < (now + asMillis cooldown) % 2 ^ 64)) := by
  rw [← health.isSome_eq] at had
  obtain ⟨s, hslot⟩ := Option.isSome_iff_exists.mp had
  rw [isUp, isUp, markDownFor]
  dsimp only
  rw [Function.update_self, hslot, Bool.eq_iff_iff]
  simp [Nat.max_le]

/-- A failure takes nothing out but the address, and that one if it tips. -/
theorem isUp_markFailure :
    (health.markFailure now addr policy).isUp now other =
      (health.isUp now other && !(decide (other = addr) && health.tips now addr policy)) := by
  rw [markFailure, tips]
  cases policy.window with
  | none => simp
  | some window =>
    cases hslot : health.failures addr with
    | none => simp
    | some s =>
      simp only [Option.any_some]
      split
      · next hc =>
        rw [isUp_setFailures]
        by_cases ho : other = addr
        · have had : ((health.setFailures addr ⟨s.next now window, now⟩).failures addr).isSome := by
            simp [setFailures, hslot]
          rw [ho, isUp_markDownFor_self had]
          simp [hc]
        · rw [isUp_markDownFor_of_ne ho]
          simp [ho]
      · next hc => simp [hc]

theorem isUpBackend_markFailure (backend : Upstream) :
    (health.markFailure now addr policy).isUpBackend now backend =
      (health.isUpBackend now backend &&
        !(decide (inetAddress backend = some addr) && health.tips now addr policy)) := by
  rw [isUpBackend, isUpBackend]
  cases inetAddress backend with
  | none => simp
  | some o => simp [isUp_markFailure]

end BackendHealth

end Pingclair
