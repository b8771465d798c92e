import Mathlib.Data.Nat.ModEq
import Pingclair.Layer4.Connect

/-!
# Falling back to another address

A connection tries up to four addresses, from the one at a shared cursor on. Before each dial it
asks whether they are still good, and reads the clock. Only a dial that fails to connect is followed
by the next. Everything that is met on the way is in a trace.
-/

namespace Pingclair.Fallback

open List Option

open Dns (ErrorKind Outcome)

/-- What is met at an offset: whether the addresses are good, a reading of the clock, and how a dial
ends. -/
structure Turn where
  available : Bool
  now : Nat
  outcome : Outcome

structure Dial (A : Type) where
  position : Nat
  address : A
  now : Nat
  attemptDeadline : Nat

inductive Event (A : Type)
  | observed (available : Bool)
  | dialled (dial : Dial A)
  | ended (outcome : Outcome)

structure Run (A : Type) where
  result : Except ErrorKind Unit
  trace : List (Event A)

variable {A : Type}

def Run.after (run : Run A) (events : List (Event A)) : Run A :=
  { run with trace := events ++ run.trace }

def tryFrom (addresses : List A) (h : 0 < addresses.length) (start deadline attemptBudget : Nat)
    (world : Nat → Turn) : (turns offset : Nat) → (last : ErrorKind) → Run A
  | 0, _, last => ⟨.error last, []⟩
  | turns + 1, offset, last =>
    let turn := world offset
    if !turn.available then ⟨.error .addrNotAvailable, [.observed false]⟩
    else if deadline ≤ turn.now then ⟨.error .timedOut, [.observed true]⟩
    else
      let attemptDeadline := min deadline (turn.now + attemptBudget)
      have hlt : (start + offset) % addresses.length < addresses.length := Nat.mod_lt _ h
      let dial := ⟨(start + offset) % addresses.length,
        addresses[(start + offset) % addresses.length], turn.now, attemptDeadline⟩
      let events := [.observed true, .dialled dial, .ended turn.outcome]
      match turn.outcome with
      | .stream => ⟨.ok (), events⟩
      | .error kind =>
        if kind.isConnection then
          (tryFrom addresses h start deadline attemptBudget world turns (offset + 1) kind).after
            events
        else ⟨.error kind, events⟩
      | .elapsed =>
        (tryFrom addresses h start deadline attemptBudget world turns (offset + 1) .timedOut).after
          events

/-- Connects to one of some addresses. `started` is the reading of the clock at the beginning. -/
def connectWith (addresses : List A) (cursor : UInt64) (budget started : Nat)
    (world : Nat → Turn) : Run A :=
  if h : 0 < addresses.length then
    let deadline := started + budget
    let count := addresses.length
    let start := if count = 1 then 0 else cursor.toNat % count
    let attemptBudget := if count = 1 then budget else min budget (2 * nanosPerSecond)
    tryFrom addresses h start deadline attemptBudget world (min count 4) 0 .timedOut
  else ⟨.error .addrNotAvailable, []⟩

/-! ### What a trace looks like -/

def Event.dial? : Event A → Option (Dial A)
  | .dialled dial => some dial
  | .observed _ | .ended _ => none

def Run.dials (run : Run A) : List (Dial A) := run.trace.filterMap Event.dial?

def Event.outcome? : Event A → Option Outcome
  | .ended outcome => some outcome
  | .observed _ | .dialled _ => none

def Run.outcomes (run : Run A) : List Outcome := run.trace.filterMap Event.outcome?

/-- A dial that succeeded, or failed otherwise than in connecting. -/
def isFinal : Outcome → Bool
  | .stream => true
  | .error kind => !kind.isConnection
  | .elapsed => false

/-- Nothing may follow: the addresses are no longer good, or a dial ended for good. -/
def Event.isFinal : Event A → Bool
  | .observed available => !available
  | .dialled _ => false
  | .ended outcome => Fallback.isFinal outcome

def Turn.Open (deadline : Nat) (turn : Turn) : Prop :=
  turn.available = true ∧ turn.now < deadline

/-- What a connection does, in terms of what it meets. `reaches` says which dials there are: as many
as four addresses and the list allow, each one after dials that all failed in connecting, and as
long as the addresses are good and there is time. -/
structure Orderly (addresses : List A) (cursor : UInt64) (deadline : Nat) (world : Nat → Turn)
    (run : Run A) : Prop where
  few : run.dials.length ≤ 4
  distinct : (run.dials.map Dial.position).Nodup
  cyclic : ∀ i dial, run.dials[i]? = some dial →
    dial.position = (cursor.toNat + i) % addresses.length ∧
      addresses[dial.position]? = some dial.address ∧ dial.now = (world i).now
  timely : ∀ dial ∈ run.dials, dial.now < deadline
  reaches : ∀ i, i < run.dials.length ↔ i < min addresses.length 4 ∧
    (∀ j ≤ i, (world j).Open deadline) ∧ ∀ j < i, isFinal (world j).outcome = false
  met : run.outcomes = (range run.dials.length).map fun i => (world i).outcome
  stops : ∀ event ∈ run.trace.dropLast, event.isFinal = false
  connected : run.result = .ok () ↔ run.trace.getLast? = some (.ended .stream)
  failed : ∀ kind, run.trace.getLast? = some (.ended (.error kind)) → kind.isConnection = false →
    run.result = .error kind

structure Dial.At (addresses : List A) (start deadline : Nat) (world : Nat → Turn) (offset : Nat)
    (dial : Dial A) : Prop where
  position_eq : dial.position = (start + offset) % addresses.length
  address_eq : addresses[dial.position]? = some dial.address
  now_eq : dial.now = (world offset).now
  opened : (world offset).Open deadline

/-- The runs that a number of turns from an offset on may give. -/
inductive Walk (addresses : List A) (start deadline : Nat) (world : Nat → Turn) :
    (turns offset : Nat) → Run A → Prop
  | exhausted (offset : Nat) (last : ErrorKind) :
    Walk addresses start deadline world 0 offset ⟨.error last, []⟩
  | refused (turns : Nat) {offset : Nat} (hclosed : ¬ (world offset).Open deadline)
      (kind : ErrorKind) (available : Bool) :
    Walk addresses start deadline world (turns + 1) offset ⟨.error kind, [.observed available]⟩
  | connected (turns : Nat) {offset : Nat} {dial : Dial A}
      (hdial : dial.At addresses start deadline world offset)
      (hmet : (world offset).outcome = .stream) :
    Walk addresses start deadline world (turns + 1) offset
      ⟨.ok (), [.observed true, .dialled dial, .ended .stream]⟩
  | failed (turns : Nat) {offset : Nat} {dial : Dial A}
      (hdial : dial.At addresses start deadline world offset) {kind : ErrorKind}
      (hmet : (world offset).outcome = .error kind) (hkind : kind.isConnection = false) :
    Walk addresses start deadline world (turns + 1) offset
      ⟨.error kind, [.observed true, .dialled dial, .ended (.error kind)]⟩
  | next {turns offset : Nat} {dial : Dial A}
      (hdial : dial.At addresses start deadline world offset) {outcome : Outcome}
      (hmet : (world offset).outcome = outcome) (houtcome : isFinal outcome = false) {run : Run A}
      (hrun : Walk addresses start deadline world turns (offset + 1) run) :
    Walk addresses start deadline world (turns + 1) offset
      (run.after [.observed true, .dialled dial, .ended outcome])

variable {addresses : List A} {start deadline : Nat} {world : Nat → Turn}

theorem walk_tryFrom (h : 0 < addresses.length) (start deadline attemptBudget : Nat)
    (world : Nat → Turn) (turns off : Nat) (last : ErrorKind) :
    Walk addresses start deadline world turns off
      (tryFrom addresses h start deadline attemptBudget world turns off last) := by
  induction turns generalizing off last with
  | zero => exact .exhausted off last
  | succ turns ih =>
    have hlt : (start + off) % addresses.length < addresses.length := Nat.mod_lt _ h
    unfold tryFrom
    dsimp only
    split
    · next hgone => exact .refused turns (fun hopen => by simp [hopen.1] at hgone) _ _
    · next hgood =>
      split
      · next hlate => exact .refused turns (fun hopen => Nat.not_lt.mpr hlate hopen.2) _ _
      · next hnow =>
        have hdial : Dial.At addresses start deadline world off
            ⟨(start + off) % addresses.length, addresses[(start + off) % addresses.length],
              (world off).now, min deadline ((world off).now + attemptBudget)⟩ :=
          ⟨rfl, List.getElem?_eq_getElem hlt, rfl, by simpa using hgood, Nat.lt_of_not_le hnow⟩
        cases hmet : (world off).outcome with
        | stream => exact .connected turns hdial hmet
        | error kind =>
          dsimp only
          split
          · next hconn => exact .next hdial hmet (by simp [isFinal, hconn]) (ih _ _)
          · next hconn => exact .failed turns hdial hmet (by simpa using hconn)
        | elapsed => exact .next hdial hmet rfl (ih _ _)

variable {off turns : Nat} {run : Run A}

section Walk

variable (h : Walk addresses start deadline world turns off run)

include h

/-- The dials are at consecutive offsets. -/
theorem Walk.dials (i : Nat) (dial : Dial A)
    (hi : run.dials[i]? = some dial) : dial.At addresses start deadline world (off + i) := by
  induction h generalizing i with
  | exhausted off l => simp [Run.dials] at hi
  | refused turns hclosed kind available => simp [Run.dials, filterMap_cons, Event.dial?] at hi
  | connected turns hdial | failed turns hdial =>
    cases i with
    | zero => exact Option.some.inj hi ▸ hdial
    | succ i => simp [Run.dials, filterMap_cons, Event.dial?] at hi
  | next hdial hmet houtcome hrun ih =>
    cases i with
    | zero => exact Option.some.inj hi ▸ hdial
    | succ i =>
      have := ih i hi
      rwa [Nat.add_right_comm] at this

/-- Which offsets are dialled. -/
theorem Walk.reaches (i : Nat) :
    i < run.dials.length ↔ i < turns ∧ (∀ j < i + 1, (world (off + j)).Open deadline) ∧
      ∀ j < i, isFinal (world (off + j)).outcome = false := by
  induction h generalizing i with
  | exhausted off l => simp [Run.dials]
  | refused turns hclosed kind available =>
    refine ⟨fun hi => absurd hi (by simp [Run.dials, filterMap_cons, Event.dial?]), fun hi => ?_⟩
    exact absurd (hi.2.1 0 (Nat.succ_pos i)) hclosed
  | connected turns hdial hmet =>
    cases i with
    | zero => simpa [Run.dials, filterMap_cons, Event.dial?] using hdial.opened
    | succ i =>
      refine ⟨fun hi => absurd hi (by simp [Run.dials, filterMap_cons, Event.dial?]), fun hi => ?_⟩
      simpa [hmet, isFinal] using hi.2.2 0 (Nat.succ_pos i)
  | failed turns hdial hmet hkind =>
    cases i with
    | zero => simpa [Run.dials, filterMap_cons, Event.dial?] using hdial.opened
    | succ i =>
      refine ⟨fun hi => absurd hi (by simp [Run.dials, filterMap_cons, Event.dial?]), fun hi => ?_⟩
      simpa [hmet, isFinal, hkind] using hi.2.2 0 (Nat.succ_pos i)
  | @next turns off dial hdial outcome hmet houtcome run hrun ih =>
    have hlen : (run.after [.observed true, .dialled dial, .ended outcome]).dials.length =
        run.dials.length + 1 := rfl
    rw [hlen]
    cases i with
    | zero => simpa using hdial.opened
    | succ i =>
      have hopen : (∀ j < i + 1 + 1, (world (off + j)).Open deadline) ↔
          ∀ j < i + 1, (world (off + 1 + j)).Open deadline := by
        rw [Nat.forall_lt_succ_left]
        simp only [Nat.add_zero, hdial.opened, true_and, Nat.add_assoc, Nat.add_comm 1]
      have hfails : (∀ j < i + 1, isFinal (world (off + j)).outcome = false) ↔
          ∀ j < i, isFinal (world (off + 1 + j)).outcome = false := by
        rw [Nat.forall_lt_succ_left]
        simp only [Nat.add_zero, hmet, houtcome, true_and, Nat.add_assoc, Nat.add_comm 1]
      rw [Nat.add_lt_add_iff_right, Nat.add_lt_add_iff_right, ih, hopen, hfails]

/-- The dials end as they are met. -/
theorem Walk.outcomes :
    run.outcomes = (range run.dials.length).map fun i => (world (off + i)).outcome := by
  induction h with
  | exhausted | refused => rfl
  | connected turns hdial hmet => exact congrArg (· :: []) hmet.symm
  | failed turns hdial hmet hkind => exact congrArg (· :: []) hmet.symm
  | @next turns off dial hdial outcome hmet houtcome run hrun ih =>
    show outcome :: run.outcomes = (range (run.dials.length + 1)).map _
    rw [ih, range_succ_eq_map, map_cons, List.map_map]
    simp only [Function.comp_def, Nat.succ_eq_add_one, Nat.add_zero, hmet, Nat.add_assoc,
      Nat.add_comm 1]

theorem Walk.stops : ∀ ev ∈ run.trace.dropLast, ev.isFinal = false := by
  induction h with
  | exhausted | refused => simp
  | connected | failed => simp [Event.isFinal]
  | next hdial hmet houtcome hrun ih =>
    rename_i run
    intro ev hevt
    unfold Run.after at hevt
    cases htrace : run.trace with
    | nil =>
      simp only [htrace, append_nil, dropLast_cons_cons, dropLast_singleton,
        mem_cons, not_mem_nil, or_false] at hevt
      rcases hevt with rfl | rfl <;> rfl
    | cons f rest =>
      rw [dropLast_append_of_ne_nil (by simp [htrace]), mem_append] at hevt
      rcases hevt with hevt | hevt
      · simp only [mem_cons, not_mem_nil, or_false] at hevt
        rcases hevt with rfl | rfl | rfl
        · rfl
        · rfl
        · exact houtcome
      · exact ih ev hevt

/-- What is returned: nothing but a dial that succeeded gives a stream. -/
theorem Walk.result :
    (run.result = .ok () ↔ run.trace.getLast? = some (.ended .stream)) ∧
      ∀ kind, run.trace.getLast? = some (.ended (.error kind)) → kind.isConnection = false →
        run.result = .error kind := by
  induction h with
  | exhausted | refused | connected | failed => simp
  | @next turns off dial hdial outcome hmet houtcome run hrun ih =>
    unfold Run.after
    cases htrace : run.trace with
    | nil =>
      have hne : outcome ≠ .stream := by
        rintro rfl
        exact Bool.noConfusion houtcome
      have hres : run.result ≠ .ok () := fun hok => by simpa [htrace] using ih.1.mp hok
      refine ⟨?_, fun kind heq hk => ?_⟩
      · simp [hres, hne]
      · obtain rfl : outcome = .error kind := by simpa using heq
        simp [isFinal, hk] at houtcome
    | cons f rest =>
      rw [htrace] at ih
      simpa [List.getLast?_append] using ih

end Walk

theorem position_injective {cursor i j count : Nat} (hi : i < count) (hj : j < count)
    (h : (cursor + i) % count = (cursor + j) % count) : i = j := by
  have hmod : i % count = j % count := Nat.ModEq.add_left_cancel' cursor h
  rwa [Nat.mod_eq_of_lt hi, Nat.mod_eq_of_lt hj] at hmod

/-- A connection dials at most four addresses, at different positions, one after another from the
cursor on and around; the next one exactly after a failure to connect, while the addresses are good
and the deadline has not passed; and nothing follows a success, an error that is not one of
connecting, or the answer that the addresses are no longer good. -/
theorem connectWith_orderly (addresses : List A) (cursor : UInt64) (budget started : Nat)
    (world : Nat → Turn) :
    Orderly addresses cursor (started + budget) world
      (connectWith addresses cursor budget started world) := by
  unfold connectWith
  by_cases h : 0 < addresses.length
  · rw [dif_pos h]
    dsimp only
    have hwalk := walk_tryFrom h
      (if addresses.length = 1 then 0 else cursor.toNat % addresses.length) (started + budget)
      (if addresses.length = 1 then budget else min budget (2 * nanosPerSecond)) world
      (min addresses.length 4) 0 .timedOut
    generalize tryFrom addresses h _ _ _ world _ 0 .timedOut = run at hwalk ⊢
    have hdials := hwalk.dials
    have hlen : run.dials.length ≤ min addresses.length 4 :=
      Nat.le_of_not_lt fun hlt => Nat.lt_irrefl _ ((hwalk.reaches _).mp hlt).1
    have hposn (i : Nat) :
        ((if addresses.length = 1 then 0 else cursor.toNat % addresses.length) + (0 + i)) %
          addresses.length = (cursor.toNat + i) % addresses.length := by
      split
      · next hone => simp [hone, Nat.mod_one]
      · rw [Nat.zero_add, Nat.mod_add_mod]
    refine ⟨by omega, ?_, fun i dial hi => ?_, fun dial hdial => ?_, fun i => ?_, ?_, hwalk.stops,
      hwalk.result.1, hwalk.result.2⟩
    · rw [List.Nodup, pairwise_iff_getElem]
      intro i j hi hj hij heq
      rw [length_map] at hi hj
      rw [getElem_map, getElem_map, (hdials i _ (List.getElem?_eq_getElem hi)).position_eq.trans
        (hposn i), (hdials j _ (List.getElem?_eq_getElem hj)).position_eq.trans (hposn j)] at heq
      exact absurd (position_injective (by omega) (by omega) heq) (Nat.ne_of_lt hij)
    · have hat := hdials i dial hi
      rw [Nat.zero_add] at hat
      exact ⟨hat.position_eq.trans (by simpa using hposn i), hat.address_eq, hat.now_eq⟩
    · obtain ⟨i, hi⟩ := mem_iff_getElem?.mp hdial
      have hat := hdials i dial hi
      exact hat.now_eq ▸ hat.opened.2
    · simpa only [Nat.zero_add, Nat.lt_succ_iff] using hwalk.reaches i
    · simpa only [Nat.zero_add] using hwalk.outcomes
  · rw [dif_neg h]
    have hnil : addresses = [] := by simpa using h
    exact ⟨by simp [Run.dials], by simp [Run.dials], by simp [Run.dials], by simp [Run.dials],
      by simp [Run.dials, hnil], by simp [Run.dials, Run.outcomes], by simp, by simp, by simp⟩

end Pingclair.Fallback
