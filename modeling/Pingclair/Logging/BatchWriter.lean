import Pingclair.Logging.AccessLog

/-!
# The access log as a pipe

What the writer hands to its sink, write by write. A write is some whole lines for one file, so that
no rotation divides a line, and the writes with the batch are the lines that were taken, in order.
-/

namespace Pingclair.AccessLog

open ByteText List

/-- A writer and its writes, each with the number of rotations before it. `peak` is the length of
the longest batch so far. -/
structure Pipe where
  state : State
  writes : List (Nat × Bytes)
  file : Nat
  peak : Nat

namespace Pipe

variable (settings : Settings)

def write (p : Pipe) (text : Bytes) : Pipe := { p with writes := p.writes ++ [(p.file, text)] }

def flush (p : Pipe) : Pipe :=
  if p.state.batch.isEmpty then p else { p.write p.state.batch with state := p.state.flush }

def rotate (p : Pipe) (conditions : Conditions) : Pipe :=
  let switched := (p.state.flush.files.rotate settings.codec conditions).2
  { p.flush with
    state := p.state.rotate settings conditions
    file := if switched then p.file + 1 else p.file }

def flushIf (p : Pipe) (due : Prop) [Decidable due] : Pipe := if due then p.flush else p

def writeThrough (p : Pipe) (line : Bytes) : Pipe :=
  { p.write line with state := p.state.writeThrough line }

def gather (p : Pipe) (line : Bytes) : Pipe :=
  { p with
    state := p.state.gather line
    peak := max p.peak (p.state.gather line).batch.length }

def put (p : Pipe) (text : Bytes) (late : Bool) : Pipe :=
  let counted := { p.state with written := p.state.written + text.length + 1 }
  let room := flushIf { p with state := counted }
    (batchBytes < p.state.batch.length + text.length + 1)
  if batchBytes ≤ text.length then room.writeThrough (text ++ [newline])
  else
    let gathered := room.gather (text ++ [newline])
    gathered.flushIf (gathered.state.batch.length = batchBytes ∨ late)

def step (p : Pipe) : Event → Pipe
  | .line text due conditions late =>
    (if p.state.isDue settings due then p.rotate settings conditions else p).put text late
  | .flush => p.flush
  | .idle => p.flush

def close (p : Pipe) : Pipe := p.flush

theorem state_flush (p : Pipe) : p.flush.state = p.state.flush := by
  rw [flush]
  split
  · next h => rw [State.flush, if_pos h]
  · rfl

theorem state_flushIf (p : Pipe) (due : Prop) [Decidable due] :
    (p.flushIf due).state = if due then p.state.flush else p.state := by
  rw [flushIf]
  split
  · exact p.state_flush
  · rfl

theorem state_put (p : Pipe) (text : Bytes) (late : Bool) :
    (p.put text late).state = p.state.put text late := by
  rw [put, State.put]
  split
  · simp only [writeThrough, state_flushIf, State.makeRoom]
  · simp only [gather, state_flushIf, State.makeRoom, State.settle]
    congr

/-- The writes are those of the writer that rotates its files. -/
theorem state_step (p : Pipe) (ev : Event) :
    (p.step settings ev).state = p.state.step settings ev := by
  cases ev with
  | line text due conditions late =>
    rw [step, State.step, state_put]
    split <;> rfl
  | flush => exact p.state_flush
  | idle => exact p.state_flush

end Pipe

def Event.lines : Event → List Bytes
  | .line text _ _ _ => [text]
  | .flush => []
  | .idle => []

def joined (lines : List Bytes) : Bytes := lines.flatMap (· ++ [newline])

/-- The writes are whole lines, and with those in the batch they are the lines that were taken. -/
structure Carries (p : Pipe) (lines : List Bytes) : Prop where
  whole : ∃ (parts : List (Nat × List Bytes)) (pending : List Bytes),
    p.writes = parts.map (Prod.map id joined) ∧ p.state.batch = joined pending ∧
      parts.flatMap Prod.snd ++ pending = lines
  batch_le : p.state.batch.length ≤ batchBytes
  peak_le : p.peak ≤ batchBytes

variable {settings : Settings} {p p' : Pipe} {lines : List Bytes}

theorem joined_eq_nil : joined lines = [] ↔ lines = [] := by
  cases lines <;> simp [joined]

section Carries

variable (h : Carries p lines)

include h

theorem Carries.congr (hw : p'.writes = p.writes)
    (hb : p'.state.batch = p.state.batch) (hp : p'.peak = p.peak) : Carries p' lines := by
  obtain ⟨hl, hle, hpk⟩ := h
  rw [← hw, ← hb] at hl
  exact ⟨hl, hb ▸ hle, hp ▸ hpk⟩

theorem Carries.flush : Carries p.flush lines := by
  rw [Pipe.flush]
  split
  · exact h
  · obtain ⟨⟨parts, pending, hw, hb, hl⟩, -, hpk⟩ := h
    refine ⟨⟨parts ++ [(p.file, pending)], [], ?_, batch_flush _, ?_⟩, ?_, hpk⟩
    · simp [Pipe.write, hw, hb]
    · simp [← hl]
    · simp [batch_flush]

theorem Carries.handed_flush : p.flush.writes.flatMap Prod.snd = joined lines := by
  obtain ⟨parts, pending, hw, hb, rfl⟩ := h.flush.whole
  rw [Pipe.state_flush, batch_flush] at hb
  rw [hw, joined_eq_nil.mp hb.symm, append_nil]
  simp [joined, flatMap_map, flatMap_assoc]

theorem Carries.flushIf (due : Prop) [Decidable due] : Carries (p.flushIf due) lines := by
  rw [Pipe.flushIf]
  split
  · exact h.flush
  · exact h

theorem Carries.writeThrough (hb : p.state.batch = []) (text : Bytes) :
    Carries (p.writeThrough (text ++ [newline])) (lines ++ [text]) := by
  obtain ⟨⟨parts, pending, hw, hj, rfl⟩, hle, hpk⟩ := h
  obtain rfl := joined_eq_nil.mp (hj.symm.trans hb)
  refine ⟨⟨parts ++ [(p.file, [text])], [], ?_, hj, by simp⟩, hle, hpk⟩
  simp [Pipe.writeThrough, Pipe.write, hw, joined]

theorem Carries.gather {text : Bytes} (hr : p.state.batch.length + text.length + 1 ≤ batchBytes) :
    Carries (p.gather (text ++ [newline])) (lines ++ [text]) := by
  obtain ⟨⟨parts, pending, hw, hj, rfl⟩, -, hpk⟩ := h
  have hle : (p.state.gather (text ++ [newline])).batch.length ≤ batchBytes := by
    simp only [State.gather, length_append, length_singleton]
    omega
  refine ⟨⟨parts, pending ++ [text], hw, ?_, by simp⟩, hle, max_le hpk hle⟩
  simp [Pipe.gather, State.gather, hj, joined]

theorem Carries.put (text : Bytes) (late : Bool) : Carries (p.put text late) (lines ++ [text]) := by
  have hc : Carries { p with state.written := p.state.written + text.length + 1 } lines :=
    h.congr rfl rfl rfl
  have hr := hc.flushIf (batchBytes < p.state.batch.length + text.length + 1)
  rw [Pipe.put]
  split
  · next hn =>
    refine hr.writeThrough ?_ text
    rw [Pipe.state_flushIf, if_pos (by omega), batch_flush]
  · next hn =>
    refine (hr.gather ?_).flushIf _
    rw [Pipe.state_flushIf]
    split
    · rw [batch_flush, length_nil]
      omega
    · next hb => exact not_lt.mp hb

theorem Carries.step (ev : Event) : Carries (p.step settings ev) (lines ++ ev.lines) := by
  cases ev with
  | line text due conditions late =>
    rw [Pipe.step]
    apply Carries.put
    split
    · have hb : (p.rotate settings conditions).state.batch = p.flush.state.batch := by
        rw [Pipe.state_flush]
        rfl
      exact h.flush.congr rfl hb rfl
    · exact h
  | flush => exact (append_nil lines).symm ▸ h.flush
  | idle => exact (append_nil lines).symm ▸ h.flush

end Carries

def piping (settings : Settings) (files : Files) (written : Nat) : Machine Pipe Event :=
  ⟨⟨(machine settings files written).start, [], 0, 0⟩, Pipe.step settings⟩

/-- Whatever arrives, and however the rotations end: all that was taken is handed over in whole
lines, once and in order, or still in the batch; and a flush, also the one at the end, empties the
batch. -/
theorem piping_exactly_once (settings : Settings) (files : Files) (written : Nat)
    (events : List Event) :
    let p := (piping settings files written).run events
    p.state = (machine settings files written).run events ∧
      Carries p (events.flatMap Event.lines) ∧
      (p.step settings .flush).writes.flatMap Prod.snd = joined (events.flatMap Event.lines) ∧
      p.close.writes.flatMap Prod.snd = joined (events.flatMap Event.lines) := by
  have hrun : Carries ((piping settings files written).run events) (events.flatMap Event.lines) ∧
      ((piping settings files written).run events).state =
        (machine settings files written).run events := by
    induction events using List.reverseRecOn with
    | nil => exact ⟨⟨⟨[], [], rfl, rfl, rfl⟩, Nat.zero_le _, Nat.zero_le _⟩, rfl⟩
    | append_singleton events ev ih =>
      simp only [Machine.run, foldl_append, flatMap_append] at ih ⊢
      rw [flatMap_singleton]
      refine ⟨ih.1.step ev, ?_⟩
      exact (Pipe.state_step settings _ ev).trans (congrArg (State.step settings · ev) ih.2)
  have hf := hrun.1.handed_flush
  exact ⟨hrun.2, hrun.1, hf, hf⟩

end Pingclair.AccessLog
