import Pingclair.Lib.ByteText
import Pingclair.Lib.Runs

/-!
# The relay of layer 4

A relay copies two byte streams, one in each direction, through a buffer each. In every round one
task looks at the idle timer, then in each direction writes what is buffered, flushes, reads when
the buffer is empty, and passes the end of the stream on.

What the sockets and the clock answer is arbitrary, within the contract of a socket: a write takes
no more than it was offered, and a read fills no more than the room it was given.
-/

namespace Pingclair

open ByteText List Option

namespace Relay

inductive Polled (α : Type) where
  | pending
  | ready (value : α)
  | failed

/-- What the sockets and the clock answer at one moment. -/
structure Answers where
  write (offered : Bytes) : Polled (Fin (offered.length + 1))
  flush : Polled Unit
  /-- The bytes read into some room; none at the end of the stream. -/
  read (room : Nat) : Polled { chunk : Bytes // chunk.length ≤ room }
  shutdown : Polled Unit
  timerFired : Bool
  /-- The next deadline is no point in time. -/
  deadlineOverflows : Bool

inductive Failure where
  | invalidInput
  | writeZero
  | timedOut
  | socket
  deriving DecidableEq

/-- The buffer of one direction: the bytes from `start` to `finish` are to be written. -/
structure Direction where
  bytes : Bytes
  start : Nat
  finish : Nat
  readSize : Nat
  eof : Bool
  closed : Bool
  flush : Bool
  bounds : start ≤ finish ∧ finish ≤ bytes.length ∧ readSize ≤ bytes.length

namespace Direction

def new (preread : Bytes) (size : Nat) : Except Failure Direction :=
  if size = 0 then .error .invalidInput
  else .ok
    { bytes := preread ++ List.replicate (size - preread.length) 0
      start := 0
      finish := preread.length
      readSize := size
      eof := false
      closed := false
      flush := false
      bounds := by
        simp only [length_append, length_replicate]
        omega }

def drained (d : Direction) : Bool := d.start == d.finish && !d.flush

def buffered (d : Direction) : Bytes := (d.bytes.take d.finish).drop d.start

theorem length_buffered (d : Direction) : d.buffered.length = d.finish - d.start := by
  have := d.bounds
  simp only [buffered, length_drop, length_take]
  omega

def advance (d : Direction) (n : Fin (d.buffered.length + 1)) : Direction :=
  { d with
    start := d.start + n
    flush := true
    bounds := by
      have hlength := d.length_buffered
      have hn := n.isLt
      have := d.bounds
      omega }

def fill (d : Direction) (chunk : { chunk : Bytes // chunk.length ≤ d.readSize }) : Direction :=
  { d with
    bytes := chunk.1 ++ d.bytes.drop chunk.1.length
    start := 0
    finish := chunk.1.length
    eof := chunk.1.isEmpty
    bounds := by
      have := chunk.2
      have := d.bounds
      simp only [length_append, length_drop]
      omega }

end Direction

/-- One direction, and what went through its sockets. -/
structure Channel where
  direction : Direction
  read : Bytes
  written : Bytes
  shutdownPolled : Bool

inductive Op where
  | write
  | flush
  | read
  | shutdown

namespace Channel

variable (c : Channel) (answers : Answers)

def pollWrite : Channel × Except Failure Bool :=
  if c.direction.start < c.direction.finish then
    match answers.write c.direction.buffered with
    | .pending => (c, .ok false)
    | .failed => (c, .error .socket)
    | .ready n =>
      if n.val = 0 then (c, .error .writeZero)
      else ({ c with
        direction := c.direction.advance n
        written := c.written ++ c.direction.buffered.take n }, .ok true)
  else (c, .ok false)

def pollFlush : Channel × Except Failure Bool :=
  if c.direction.start = c.direction.finish ∧ c.direction.flush = true then
    match answers.flush with
    | .pending => (c, .ok false)
    | .failed => (c, .error .socket)
    | .ready () => ({ c with direction := { c.direction with flush := false } }, .ok true)
  else (c, .ok false)

def pollRead (readOpen : Bool) : Channel × Except Failure Bool :=
  if c.direction.drained && !c.direction.eof && readOpen then
    match answers.read c.direction.readSize with
    | .pending => (c, .ok false)
    | .failed => (c, .error .socket)
    | .ready chunk => ({ c with
        direction := c.direction.fill chunk
        read := c.read ++ chunk.1 }, .ok true)
  else (c, .ok false)

def pollShutdown (halfClose : Bool) : Channel × Except Failure Bool :=
  if c.direction.eof && c.direction.drained && halfClose && !c.direction.closed then
    let polled := { c with shutdownPolled := true }
    match answers.shutdown with
    | .pending => (polled, .ok false)
    | .failed => (polled, .error .socket)
    | .ready () => ({ polled with direction := { c.direction with closed := true } }, .ok true)
  else (c, .ok false)

def poll (halfClose readOpen : Bool) : Op → Channel × Except Failure Bool
  | .write => c.pollWrite answers
  | .flush => c.pollFlush answers
  | .read => c.pollRead answers readOpen
  | .shutdown => c.pollShutdown answers halfClose

end Channel

structure RelayOptions where
  bufferSize : Nat
  halfClose : Bool

inductive Side where
  | forward
  | reverse

inductive Stage where
  | timer
  | poll (side : Side) (op : Op)
  | settle
  | done (result : Except Failure Unit)

structure Session where
  forward : Channel
  reverse : Channel
  stage : Stage
  rounds : Nat
  progress : Bool

namespace Session

def channel (s : Session) : Side → Channel
  | .forward => s.forward
  | .reverse => s.reverse

def setChannel (s : Session) (c : Channel) : Side → Session
  | .forward => { s with forward := c }
  | .reverse => { s with reverse := c }

/-- Reads go on in a direction while the other one has not ended, or ends are passed on. -/
def readOpen (s : Session) (options : RelayOptions) : Side → Bool
  | .forward => options.halfClose || !s.reverse.direction.eof
  | .reverse => options.halfClose || !s.forward.direction.eof

def finished (s : Session) (options : RelayOptions) : Bool :=
  if options.halfClose then s.forward.direction.closed && s.reverse.direction.closed
  else (s.forward.direction.eof || s.reverse.direction.eof) && s.forward.direction.drained &&
    s.reverse.direction.drained

end Session

def nextStage : Side → Op → Stage
  | side, .write => .poll side .flush
  | side, .flush => .poll side .read
  | side, .read => .poll side .shutdown
  | .forward, .shutdown => .poll .reverse .write
  | .reverse, .shutdown => .settle

def step (options : RelayOptions) (s : Session) (answers : Answers) : Session :=
  match s.stage with
  | .timer =>
    if answers.timerFired then { s with stage := .done (.error .timedOut) }
    else { s with stage := .poll .forward .write, progress := false }
  | .poll side op =>
    let polled := (s.channel side).poll answers options.halfClose (s.readOpen options side) op
    let s := s.setChannel polled.1 side
    match polled.2 with
    | .error failure => { s with stage := .done (.error failure) }
    | .ok progress => { s with stage := nextStage side op, progress := s.progress || progress }
  | .settle =>
    if s.finished options then { s with stage := .done (.ok ()) }
    -- without progress the task sleeps until a socket or the timer wakes it
    else if !s.progress then { s with stage := .timer, rounds := 0 }
    else if answers.deadlineOverflows then { s with stage := .done (.error .invalidInput) }
    -- after 64 rounds the task yields
    else { s with stage := .timer, rounds := (s.rounds + 1) % 64 }
  | .done _ => s

def start (options : RelayOptions) (preread : Bytes) (deadlineOverflows : Bool) :
    Except Failure Session := do
  let forward ← Direction.new preread options.bufferSize
  let reverse ← Direction.new [] options.bufferSize
  if deadlineOverflows then .error .invalidInput
  else return ⟨⟨forward, [], [], false⟩, ⟨reverse, [], [], false⟩, .timer, 0, false⟩

def machine (options : RelayOptions) (s : Session) : Machine Session Answers where
  start := s
  step := step options

/-! ### Conservation -/

structure Channel.Sound (preread : Bytes) (c : Channel) : Prop where
  /-- What was written and what is buffered are what was read. -/
  conserved : c.written ++ c.direction.buffered = preread ++ c.read
  /-- At the end of the stream nothing is left to write or to flush. -/
  drained_of_eof : c.direction.eof = true → c.direction.drained = true
  /-- The destination is shut down only at the end of the stream. -/
  eof_of_shutdown : c.shutdownPolled = true → c.direction.eof = true
  shutdown_of_closed : c.direction.closed = true → c.shutdownPolled = true

namespace Direction

theorem drained_iff {d : Direction} : d.drained = true ↔ d.start = d.finish ∧ d.flush = false := by
  simp [drained]

theorem buffered_eq_nil {d : Direction} (h : d.start = d.finish) : d.buffered = [] := by
  rw [← length_eq_zero_iff, length_buffered, h, Nat.sub_self]

theorem buffered_advance (d : Direction) (n : Fin (d.buffered.length + 1)) :
    (d.advance n).buffered = d.buffered.drop n := by
  simp [buffered, advance]

theorem buffered_fill (d : Direction) (ch : { ch : Bytes // ch.length ≤ d.readSize }) :
    (d.fill ch).buffered = ch.1 := by
  simp [buffered, fill]

end Direction

namespace Channel

variable {preread : Bytes} {c : Channel} (answers : Answers)

theorem sound_new {size : Nat} {d : Direction} (h : Direction.new preread size = .ok d) :
    (Channel.mk d [] [] false).Sound preread := by
  rw [Direction.new] at h
  split at h
  · cases h
  · cases h
    refine ⟨?_, nofun, nofun, nofun⟩
    simp [Direction.buffered]

variable (h : c.Sound preread)

include h

theorem Sound.written_eq (hdrn : c.direction.drained = true) : c.written = preread ++ c.read := by
  have hem := Direction.buffered_eq_nil (Direction.drained_iff.mp hdrn).1
  rw [← h.conserved, hem, append_nil]

theorem Sound.pollWrite : (c.pollWrite answers).1.Sound preread := by
  rw [Channel.pollWrite]
  split
  · next hlt =>
    -- what is left to write has not reached the end of the stream
    have heof : c.direction.eof = false := by
      by_contra heof
      have := (Direction.drained_iff.mp (h.drained_of_eof (by simpa using heof))).1
      omega
    split
    · exact h
    · exact h
    · next n _ =>
      split
      · exact h
      · refine ⟨?_, ?_, h.eof_of_shutdown, h.shutdown_of_closed⟩
        · rw [Direction.buffered_advance, append_assoc, take_append_drop, h.conserved]
        · intro hend
          exact absurd (heof.symm.trans hend) (by decide)
  · exact h

theorem Sound.pollFlush : (c.pollFlush answers).1.Sound preread := by
  rw [Channel.pollFlush]
  split
  · next hflush =>
    split
    · exact h
    · exact h
    · refine ⟨h.conserved, ?_, h.eof_of_shutdown, h.shutdown_of_closed⟩
      intro _
      exact Direction.drained_iff.mpr ⟨hflush.1, rfl⟩
  · exact h

theorem Sound.pollRead (readOpen : Bool) : (c.pollRead answers readOpen).1.Sound preread := by
  rw [Channel.pollRead]
  split
  · next hrd =>
    simp only [Bool.and_eq_true, Bool.not_eq_true'] at hrd
    obtain ⟨⟨hdrn, heof⟩, -⟩ := hrd
    have hshutdown : ¬c.shutdownPolled = true := fun hpo =>
      absurd (heof.symm.trans (h.eof_of_shutdown hpo)) (by decide)
    split
    · exact h
    · exact h
    · next ch _ =>
      refine ⟨?_, ?_, fun hpo => absurd hpo hshutdown, fun hcl =>
        absurd (h.shutdown_of_closed hcl) hshutdown⟩
      · rw [Direction.buffered_fill, h.written_eq hdrn, append_assoc]
      · -- an empty read leaves an empty buffer, and nothing was waiting to be flushed
        intro hem
        have hni : ch.1 = [] := isEmpty_iff.mp hem
        have hflush := (Direction.drained_iff.mp hdrn).2
        rw [Direction.drained_iff]
        exact ⟨by simp [Direction.fill, hni], hflush⟩
  · exact h

theorem Sound.pollShutdown (halfClose : Bool) :
    (c.pollShutdown answers halfClose).1.Sound preread := by
  rw [Channel.pollShutdown]
  split
  · next hend =>
    simp only [Bool.and_eq_true] at hend
    have heof := hend.1.1.1
    split
    · exact ⟨h.conserved, h.drained_of_eof, fun _ => heof, fun _ => rfl⟩
    · exact ⟨h.conserved, h.drained_of_eof, fun _ => heof, fun _ => rfl⟩
    · exact ⟨h.conserved, h.drained_of_eof, fun _ => heof, fun _ => rfl⟩
  · exact h

/-- Every poll keeps a direction sound, also one that fails. -/
theorem Sound.poll (halfClose readOpen : Bool) (op : Op) :
    (c.poll answers halfClose readOpen op).1.Sound preread := by
  cases op with
  | write => exact h.pollWrite answers
  | flush => exact h.pollFlush answers
  | read => exact h.pollRead answers readOpen
  | shutdown => exact h.pollShutdown answers halfClose

end Channel

def before (preread : Bytes) : Side → Bytes
  | .forward => preread
  | .reverse => []

/-- Both directions are sound, and a relay that ended well has emptied both of them and, if ends
are passed on, shut them down. -/
structure Session.Sound (options : RelayOptions) (preread : Bytes) (s : Session) : Prop where
  channels : ∀ side, (s.channel side).Sound (before preread side)
  ended : s.stage = .done (.ok ()) → ∀ side, (s.channel side).direction.drained = true ∧
    (options.halfClose = true → (s.channel side).direction.closed = true)

namespace Session

variable {options : RelayOptions} {preread : Bytes} {s : Session}

theorem channel_setChannel_sound (h : ∀ side, (s.channel side).Sound (before preread side))
    {c : Channel} {side : Side} (hc : c.Sound (before preread side)) (o : Side) :
    ((s.setChannel c side).channel o).Sound (before preread o) := by
  cases side <;> cases o
  · exact hc
  · exact h .reverse
  · exact h .forward
  · exact hc

/-- When the relay ends well, both directions are empty. -/
theorem drained_of_finished (h : ∀ side, (s.channel side).Sound (before preread side))
    (hf : s.finished options = true) (side : Side) :
    (s.channel side).direction.drained = true ∧
      (options.halfClose = true → (s.channel side).direction.closed = true) := by
  rw [finished] at hf
  cases hhalf : options.halfClose with
  | true =>
    rw [hhalf, if_pos rfl, Bool.and_eq_true] at hf
    have hcl : (s.channel side).direction.closed = true := by
      cases side
      · exact hf.1
      · exact hf.2
    have heof := (h side).eof_of_shutdown ((h side).shutdown_of_closed hcl)
    exact ⟨(h side).drained_of_eof heof, fun _ => hcl⟩
  | false =>
    rw [hhalf] at hf
    simp only [Bool.false_eq_true, if_false, Bool.and_eq_true] at hf
    refine ⟨?_, fun hcls => absurd hcls (by decide)⟩
    cases side
    · exact hf.1.2
    · exact hf.2

theorem Sound.step (h : s.Sound options preread) (answers : Answers) :
    (step options s answers).Sound options preread := by
  rw [Relay.step]
  split
  · split
    · exact ⟨h.channels, nofun⟩
    · exact ⟨h.channels, nofun⟩
  · next sd op _ =>
    have hpo := (h.channels sd).poll answers options.halfClose (s.readOpen options sd) op
    have hchannels := channel_setChannel_sound h.channels hpo
    dsimp only
    split
    · exact ⟨hchannels, nofun⟩
    · refine ⟨hchannels, fun hdn => ?_⟩
      cases sd <;> cases op <;> cases hdn
  · split
    · next hf => exact ⟨h.channels, fun _ => drained_of_finished h.channels hf⟩
    split
    · exact ⟨h.channels, nofun⟩
    split
    · exact ⟨h.channels, nofun⟩
    · exact ⟨h.channels, nofun⟩
  · exact h

theorem sound_start {overflows : Bool} (h : start options preread overflows = .ok s) :
    s.Sound options preread := by
  rw [Relay.start] at h
  cases hfwd : Direction.new preread options.bufferSize with
  | error f =>
    rw [hfwd] at h
    cases h
  | ok fr =>
    cases hreverse : Direction.new [] options.bufferSize with
    | error f =>
      rw [hfwd, hreverse] at h
      cases h
    | ok r =>
      rw [hfwd, hreverse] at h
      cases overflows
      · cases h
        refine ⟨fun sd => ?_, nofun⟩
        cases sd
        · exact Channel.sound_new hfwd
        · exact Channel.sound_new hreverse
      · cases h

end Session

/-- At every moment of a relay, in each direction: what the destination took, followed by what is
buffered, is what was read before the relay and by it; the destination is asked to shut down only
when it took everything and the source has ended; and once the relay ends well, everything read
has been written and, when ends are passed on, the destination has been shut down. -/
theorem conserves {options : RelayOptions} {preread : Bytes} {overflows : Bool}
    {first s : Session} (hstart : start options preread overflows = .ok first)
    (h : (machine options first).Reachable (fun _ _ => True) s) (side : Side) :
    (s.channel side).written ++ (s.channel side).direction.buffered =
        before preread side ++ (s.channel side).read ∧
      ((s.channel side).shutdownPolled = true → (s.channel side).direction.eof = true ∧
        (s.channel side).written = before preread side ++ (s.channel side).read) ∧
      ((s.channel side).direction.closed = true ∨ s.stage = .done (.ok ()) →
        (s.channel side).written = before preread side ++ (s.channel side).read ∧
        (options.halfClose = true → (s.channel side).shutdownPolled = true)) := by
  have hsd : s.Sound options preread :=
    h.invariant (I := Session.Sound options preread) (Session.sound_start hstart)
      fun _ a hs _ => hs.step a
  have hchan := hsd.channels side
  have hended : (s.channel side).shutdownPolled = true → (s.channel side).direction.eof = true ∧
      (s.channel side).written = before preread side ++ (s.channel side).read := fun hpo =>
    have heof := hchan.eof_of_shutdown hpo
    ⟨heof, hchan.written_eq (hchan.drained_of_eof heof)⟩
  refine ⟨hchan.conserved, hended, ?_⟩
  rintro (hcl | hdn)
  · have hpo := hchan.shutdown_of_closed hcl
    exact ⟨(hended hpo).2, fun _ => hpo⟩
  · obtain ⟨hdrn, hcl⟩ := hsd.ended hdn side
    exact ⟨hchan.written_eq hdrn, fun hhalf => hchan.shutdown_of_closed (hcl hhalf)⟩

def eager : Answers where
  write offered := .ready (Fin.last offered.length)
  flush := .ready ()
  read _ := .ready ⟨[], Nat.zero_le _⟩
  shutdown := .ready ()
  timerFired := false
  deadlineOverflows := false

def eagerStart : Session := (start ⟨4, true⟩ (ascii "ab") false).toOption.get rfl

theorem conserves_eager :
    ((machine ⟨4, true⟩ eagerStart).run (List.replicate 10 eager)).stage = .done (.ok ()) ∧
      (((machine ⟨4, true⟩ eagerStart).run (List.replicate 10 eager)).channel .forward).written =
        ascii "ab" := by
  have hst : start ⟨4, true⟩ (ascii "ab") false = .ok eagerStart := rfl
  have hr := Machine.reachable_run (m := machine ⟨4, true⟩ eagerStart)
    (Machine.allows_of_forall (fun _ _ => trivial) _ (List.replicate 10 eager))
  exact ⟨rfl, ((conserves hst hr .forward).2.2 (.inr rfl)).1⟩

end Relay

end Pingclair
