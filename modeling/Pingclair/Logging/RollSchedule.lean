import Pingclair.Lib.Numerals
import Pingclair.Lib.Periodic
import Pingclair.Lib.Utf8

/-!
# Scheduled rolls

A log can be rolled at minutes of the hour and at times of the day, of the local clock. Whether one
has passed since the file was opened is read off counts of hours and of days of UTC, which begin at
other instants where an offset is not a whole number of them.
-/

namespace Pingclair.RollSchedule

open ByteText Numerals Periodic Option

abbrev colon : UInt8 := 0x3A

structure Rotation where
  rollAt : Option Bytes
  rollMinutes : Option Bytes

def parseU32 (s : Bytes) : Option Nat := parseUnsigned 4294967295 s

def parseMinuteList (value : Bytes) : List Nat :=
  (Utf8.splitWhitespace value).filterMap fun token => (parseU32 token).filter (· < 60)

def parseTime (token : Bytes) : Option (Nat × Nat) := do
  let (hour, minute) ← splitOnce colon token
  let hour ← parseU32 hour
  let minute ← parseU32 minute
  if hour < 24 ∧ minute < 60 then some (hour, minute) else none

def parseTimeList (value : Bytes) : List (Nat × Nat) :=
  (Utf8.splitWhitespace value).filterMap parseTime

namespace Rotation

def minutes (rotation : Rotation) : List Nat := (rotation.rollMinutes.map parseMinuteList).getD []

def times (rotation : Rotation) : List (Nat × Nat) :=
  (rotation.rollAt.map parseTimeList).getD []

end Rotation

theorem lt_of_mem_parseMinuteList {value : Bytes} {minute : Nat}
    (h : minute ∈ parseMinuteList value) : minute < 60 := by
  obtain ⟨token, -, htoken⟩ := List.mem_filterMap.mp h
  simpa using (filter_eq_some_iff.mp htoken).2

theorem lt_of_parseTime {token : Bytes} {time : Nat × Nat} (h : parseTime token = some time) :
    time.1 < 24 ∧ time.2 < 60 := by
  unfold parseTime at h
  simp only [bind_eq_bind, bind_eq_some_iff] at h
  obtain ⟨parts, -, hour, -, minute, -, h⟩ := h
  by_cases hrg : hour < 24 ∧ minute < 60
  · rw [if_pos hrg] at h
    obtain rfl := Option.some.inj h
    exact hrg
  · rw [if_neg hrg] at h
    simp at h

theorem Rotation.minute_lt {rotation : Rotation} {minute : Nat} (h : minute ∈ rotation.minutes) :
    minute < 60 := by
  unfold minutes at h
  cases hv : rotation.rollMinutes with
  | none => simp [hv] at h
  | some value =>
    rw [hv] at h
    exact lt_of_mem_parseMinuteList h

theorem Rotation.time_lt {rotation : Rotation} {time : Nat × Nat} (h : time ∈ rotation.times) :
    time.1 < 24 ∧ time.2 < 60 := by
  unfold times at h
  cases hv : rotation.rollAt with
  | none => simp [hv] at h
  | some value =>
    rw [hv] at h
    obtain ⟨token, -, htoken⟩ := List.mem_filterMap.mp h
    exact lt_of_parseTime htoken

/-- Instants are counted in nanoseconds from the epoch. -/
def nanosPerSecond : Int := 1000000000

def timestamp (instant : Int) : Int := instant / nanosPerSecond

def localSeconds (offset instant : Int) : Int := timestamp instant + offset

def hour (offset instant : Int) : Nat := (localSeconds offset instant % 86400 / 3600).toNat

def minute (offset instant : Int) : Nat := (localSeconds offset instant % 3600 / 60).toNat

def elapsedHours (offset : Int) (roll : Nat) (instant : Int) : Int :=
  let reached := roll ≤ minute offset instant
  timestamp instant / 3600 + if reached then 1 else 0

def elapsedDays (offset : Int) (roll : Nat × Nat) (instant : Int) : Int :=
  let reached := roll.1 < hour offset instant ∨
    roll.1 = hour offset instant ∧ roll.2 ≤ minute offset instant
  timestamp instant / 86400 + if reached then 1 else 0

/-- Whether a scheduled time has passed since the file was opened. -/
def crossedAScheduledTime (offset : Int) (rotation : Rotation) (opened now : Int) : Bool :=
  if rotation.rollAt.isNone && rotation.rollMinutes.isNone then false
  else if now ≤ opened then false
  else
    (rotation.rollMinutes.any fun value => (parseMinuteList value).any fun roll =>
      elapsedHours offset roll opened < elapsedHours offset roll now) ||
    rotation.rollAt.any fun value => (parseTimeList value).any fun roll =>
      elapsedDays offset roll opened < elapsedDays offset roll now

/-- The seconds of the local clock are at zero, and the minute or the time is scheduled. -/
def Scheduled (offset : Int) (rotation : Rotation) (instant : Int) : Prop :=
  (instant + offset * nanosPerSecond) % (60 * nanosPerSecond) = 0 ∧
    (minute offset instant ∈ rotation.minutes ∨
      (hour offset instant, minute offset instant) ∈ rotation.times)

/-! ### Rolls -/

/-- A roll that comes once in a period of the local clock, at a phase. -/
structure Roll where
  period : Int
  phase : Int
  deriving DecidableEq

def hourly (minute : Nat) : Roll := ⟨3600, 60 * minute⟩

def daily (time : Nat × Nat) : Roll := ⟨86400, 3600 * time.1 + 60 * time.2⟩

def Rotation.rolls (rotation : Rotation) : List Roll :=
  rotation.minutes.map hourly ++ rotation.times.map daily

namespace Roll

def count (roll : Roll) (offset instant : Int) : Int :=
  turns roll.period roll.phase (localSeconds offset instant)

/-- Whether the local clock is in a later period than the whole periods of the offset make it. -/
def early (roll : Roll) (offset instant : Int) : Bool :=
  ahead roll.period offset (timestamp instant)

def elapsed (roll : Roll) (offset instant : Int) : Int :=
  timestamp instant / roll.period +
    if roll.phase ≤ localSeconds offset instant % roll.period then 1 else 0

variable (roll : Roll) (offset opened now : Int)

def Comes : Prop := roll.count offset opened < roll.count offset now

/-- The roll comes once, and the local clock begins a period of its own in the window that the count
does not begin. -/
def Missed : Prop :=
  roll.count offset now = roll.count offset opened + 1 ∧ roll.early offset opened = false ∧
    roll.early offset now = true

/-- The roll does not come, and the count begins a period in the window that the local clock had
begun before. -/
def Invented : Prop :=
  ¬ roll.Comes offset opened now ∧ roll.early offset opened = true ∧ roll.early offset now = false

instance : Decidable (roll.Comes offset opened now) := inferInstanceAs (Decidable (_ < _))

instance : Decidable (roll.Missed offset opened now) := inferInstanceAs (Decidable (_ ∧ _))

instance : Decidable (roll.Invented offset opened now) := inferInstanceAs (Decidable (_ ∧ _))

structure Valid : Prop where
  nonneg : 0 ≤ roll.phase
  lt : roll.phase < roll.period

end Roll

section

variable {rotation : Rotation} {roll : Roll} {offset opened now instant : Int}

theorem Rotation.valid_of_mem_rolls (h : roll ∈ rotation.rolls) : roll.Valid := by
  rcases List.mem_append.mp h with h | h
  · obtain ⟨m, hm, rfl⟩ := List.mem_map.mp h
    have hlt := minute_lt hm
    constructor <;> simp only [hourly] <;> omega
  · obtain ⟨t, htime, rfl⟩ := List.mem_map.mp h
    have hlt := time_lt htime
    constructor <;> simp only [daily] <;> omega

theorem elapsedHours_eq (minute : Nat) (offset instant : Int) :
    elapsedHours offset minute instant = (hourly minute).elapsed offset instant := by
  unfold elapsedHours Roll.elapsed hourly RollSchedule.minute
  simp only
  congr 2
  apply propext
  omega

theorem elapsedDays_eq {time : Nat × Nat} (h : time.2 < 60) (offset instant : Int) :
    elapsedDays offset time instant = (daily time).elapsed offset instant := by
  unfold elapsedDays Roll.elapsed daily hour minute
  simp only
  congr 2
  apply propext
  omega

/-- The answer, by the count of each roll. -/
theorem crossedAScheduledTime_iff (h : opened < now) :
    crossedAScheduledTime offset rotation opened now = true ↔
      ∃ roll ∈ rotation.rolls, roll.elapsed offset opened < roll.elapsed offset now := by
  have hminutes : (rotation.rollMinutes.any fun value => (parseMinuteList value).any fun roll =>
      elapsedHours offset roll opened < elapsedHours offset roll now) = true ↔
      ∃ m ∈ rotation.minutes, (hourly m).elapsed offset opened < (hourly m).elapsed offset now := by
    unfold Rotation.minutes
    cases rotation.rollMinutes with
    | none => simp
    | some value => simp [elapsedHours_eq]
  have htimes : (rotation.rollAt.any fun value => (parseTimeList value).any fun roll =>
      elapsedDays offset roll opened < elapsedDays offset roll now) = true ↔
      ∃ t ∈ rotation.times, (daily t).elapsed offset opened < (daily t).elapsed offset now := by
    unfold Rotation.times
    cases rotation.rollAt with
    | none => simp
    | some value =>
      simp only [any_some, List.any_eq_true, decide_eq_true_eq, map_some, getD_some]
      refine exists_congr fun t => and_congr_right fun htime => ?_
      obtain ⟨token, -, htoken⟩ := List.mem_filterMap.mp htime
      have hlt := (lt_of_parseTime htoken).2
      rw [elapsedDays_eq hlt, elapsedDays_eq hlt]
  have hrolls : (∃ roll ∈ rotation.rolls, roll.elapsed offset opened < roll.elapsed offset now) ↔
      (∃ m ∈ rotation.minutes, (hourly m).elapsed offset opened < (hourly m).elapsed offset now) ∨
      ∃ t ∈ rotation.times, (daily t).elapsed offset opened < (daily t).elapsed offset now := by
    simp [Rotation.rolls, or_and_right, exists_or]
  rw [hrolls, ← hminutes, ← htimes, ← Bool.or_eq_true]
  unfold crossedAScheduledTime
  split
  · next hnone =>
    rw [Bool.and_eq_true, isNone_iff_eq_none, isNone_iff_eq_none] at hnone
    simp [hnone]
  · rw [if_neg (not_le.mpr h)]

/-- The scheduled instants are those at which a roll comes. -/
theorem scheduled_iff : Scheduled offset rotation instant ↔
    ∃ t, instant = t * nanosPerSecond ∧
      ∃ roll ∈ rotation.rolls, (t + offset) % roll.period = roll.phase := by
  have hrolls (t : Int) : (∃ roll ∈ rotation.rolls, (t + offset) % roll.period = roll.phase) ↔
      (∃ m ∈ rotation.minutes, (t + offset) % 3600 = 60 * m) ∨
      ∃ tm ∈ rotation.times, (t + offset) % 86400 = 3600 * tm.1 + 60 * tm.2 := by
    simp [Rotation.rolls, or_and_right, exists_or, hourly, daily]
  have hex (t : Int) : Scheduled offset rotation (t * nanosPerSecond) ↔
      (t + offset) % 60 = 0 ∧ (((t + offset) % 3600 / 60).toNat ∈ rotation.minutes ∨
        (((t + offset) % 86400 / 3600).toNat, ((t + offset) % 3600 / 60).toNat) ∈
          rotation.times) := by
    unfold Scheduled minute hour localSeconds timestamp nanosPerSecond
    rw [Int.mul_ediv_cancel _ (by decide)]
    refine and_congr_left fun _ => ?_
    omega
  have hwh : Scheduled offset rotation instant → ∃ t, instant = t * nanosPerSecond := by
    rintro ⟨hz, -⟩
    refine ⟨instant / nanosPerSecond, ?_⟩
    unfold nanosPerSecond at hz ⊢
    omega
  have hroll (t : Int) : Scheduled offset rotation (t * nanosPerSecond) ↔
      ∃ roll ∈ rotation.rolls, (t + offset) % roll.period = roll.phase := by
    rw [hex, hrolls]
    constructor
    · rintro ⟨hz, hminute | htime⟩
      · exact .inl ⟨_, hminute, by omega⟩
      · exact .inr ⟨_, htime, by simp only; omega⟩
    · rintro (⟨m, hm, heq⟩ | ⟨tm, htime, heq⟩)
      · have hshown : ((t + offset) % 3600 / 60).toNat = m := by omega
        exact ⟨by omega, .inl (hshown ▸ hm)⟩
      · have hlt := Rotation.time_lt htime
        have hhour : ((t + offset) % 86400 / 3600).toNat = tm.1 := by omega
        have hminute : ((t + offset) % 3600 / 60).toNat = tm.2 := by omega
        refine ⟨by omega, .inr ?_⟩
        rw [hhour, hminute]
        exact htime
  constructor
  · intro h
    obtain ⟨t, rfl⟩ := hwh h
    exact ⟨t, rfl, (hroll t).mp h⟩
  · rintro ⟨t, rfl, h⟩
    exact (hroll t).mpr h

/-- A scheduled instant lies in the window exactly when a roll comes in it. -/
theorem exists_scheduled_iff :
    (∃ t, opened < t ∧ t ≤ now ∧ Scheduled offset rotation t) ↔
      ∃ roll ∈ rotation.rolls, roll.Comes offset opened now := by
  have hturn (roll : Roll) (hroll : roll ∈ rotation.rolls) : roll.Comes offset opened now ↔
      ∃ t, opened < t * nanosPerSecond ∧ t * nanosPerSecond ≤ now ∧
        (t + offset) % roll.period = roll.phase := by
    have hv := Rotation.valid_of_mem_rolls hroll
    unfold Roll.Comes Roll.count
    rw [← exists_turn_iff hv.nonneg hv.lt]
    unfold localSeconds timestamp nanosPerSecond
    constructor
    · rintro ⟨x, hop, hnow, hx⟩
      refine ⟨x - offset, by omega, by omega, ?_⟩
      rw [sub_add_cancel]
      exact hx
    · rintro ⟨t, hop, hnow, ht⟩
      exact ⟨t + offset, by omega, by omega, ht⟩
  constructor
  · rintro ⟨i, hop, hnow, hscheduled⟩
    obtain ⟨t, rfl, roll, hroll, ht⟩ := scheduled_iff.mp hscheduled
    exact ⟨roll, hroll, (hturn roll hroll).mpr ⟨t, hop, hnow, ht⟩⟩
  · rintro ⟨roll, hroll, hcomes⟩
    obtain ⟨t, hop, hnow, ht⟩ := (hturn roll hroll).mp hcomes
    exact ⟨t * nanosPerSecond, hop, hnow, scheduled_iff.mpr ⟨t, rfl, roll, hroll, ht⟩⟩

/-- What is counted lags behind by the whole periods of the offset, and by one more where the local
clock is early. -/
theorem Roll.Valid.elapsed_eq (h : roll.Valid) (offset instant : Int) :
    roll.elapsed offset instant = roll.count offset instant + 1 - offset / roll.period -
      if roll.early offset instant then 1 else 0 := by
  have hturns := turns_add_one h.nonneg h.lt (localSeconds offset instant)
  have hperiods := add_ediv_eq (h.nonneg.trans_lt h.lt) (timestamp instant) offset
  unfold localSeconds at hturns
  unfold elapsed count early localSeconds
  omega

theorem Roll.count_le_count (h : opened ≤ now) (hv : roll.Valid) :
    roll.count offset opened ≤ roll.count offset now := by
  unfold count turns localSeconds timestamp
  apply Int.ediv_le_ediv (hv.nonneg.trans_lt hv.lt)
  have := Int.ediv_le_ediv (show 0 < nanosPerSecond by decide) h
  omega

/-- The counts show the rolls that come and are not missed, and those that are invented. -/
theorem Roll.Valid.elapsed_lt_iff (hv : roll.Valid) (h : opened < now) :
    roll.elapsed offset opened < roll.elapsed offset now ↔
      roll.Comes offset opened now ∧ ¬ roll.Missed offset opened now ∨
        roll.Invented offset opened now := by
  have hle : roll.count offset opened ≤ roll.count offset now := Roll.count_le_count h.le hv
  rw [hv.elapsed_eq, hv.elapsed_eq]
  unfold Invented Missed Comes
  cases roll.early offset opened <;> cases roll.early offset now <;> simp <;> omega

end

/-- Whether a scheduled time has passed is answered rightly exactly when one that comes in the
window is not missed, or when one comes and another is invented, or neither. -/
theorem crossed_iff (offset : Int) (rotation : Rotation) (opened now : Int) (h : opened < now) :
    (crossedAScheduledTime offset rotation opened now = true ↔
      ∃ t, opened < t ∧ t ≤ now ∧ Scheduled offset rotation t) ↔
    (∃ roll ∈ rotation.rolls, roll.Comes offset opened now ∧ ¬ roll.Missed offset opened now) ∨
    ((∃ roll ∈ rotation.rolls, roll.Comes offset opened now) ↔
      ∃ roll ∈ rotation.rolls, roll.Invented offset opened now) := by
  have hans : (∃ roll ∈ rotation.rolls, roll.elapsed offset opened < roll.elapsed offset now) ↔
      (∃ roll ∈ rotation.rolls, roll.Comes offset opened now ∧ ¬ roll.Missed offset opened now) ∨
      ∃ roll ∈ rotation.rolls, roll.Invented offset opened now := by
    rw [← exists_or]
    refine exists_congr fun roll => ?_
    rw [← and_or_left]
    exact and_congr_right fun hroll => (Rotation.valid_of_mem_rolls hroll).elapsed_lt_iff h
  have hcomes : (∃ roll ∈ rotation.rolls,
      roll.Comes offset opened now ∧ ¬ roll.Missed offset opened now) →
      ∃ roll ∈ rotation.rolls, roll.Comes offset opened now :=
    fun ⟨roll, hroll, hcomes, _⟩ => ⟨roll, hroll, hcomes⟩
  rw [crossedAScheduledTime_iff h, exists_scheduled_iff, hans]
  constructor
  · intro hrt
    by_cases hse : ∃ roll ∈ rotation.rolls,
        roll.Comes offset opened now ∧ ¬ roll.Missed offset opened now
    · exact .inl hse
    · exact .inr ⟨fun hs => (hrt.mpr hs).resolve_left hse, fun hinvented => hrt.mp (.inr hinvented)⟩
  · rintro (hse | hboth)
    · exact ⟨fun _ => hcomes hse, fun _ => .inl hse⟩
    · exact ⟨fun hs => hs.elim hcomes hboth.mpr, fun hs => .inr (hboth.mp hs)⟩

namespace Midnight

def nightly : Rotation := ⟨some (ascii "00:00"), none⟩

def clock (hour minute : Int) : Int := (hour * 3600 + minute * 60) * nanosPerSecond

/-- In UTC a file that was opened at 23:30 is rolled after midnight. -/
theorem crossed : clock 23 30 < clock 24 10 ∧
    (crossedAScheduledTime 0 nightly (clock 23 30) (clock 24 10) = true ↔
      ∃ t, clock 23 30 < t ∧ t ≤ clock 24 10 ∧ Scheduled 0 nightly t) := by
  refine ⟨by decide, (crossed_iff 0 nightly _ _ (by decide)).mpr (.inl ?_)⟩
  exact ⟨daily (0, 0), List.mem_singleton_self _, by decide⟩

/-- One hour east of UTC it is not, at 00:10. -/
theorem not_crossed : ¬ (crossedAScheduledTime 3600 nightly (clock 22 30) (clock 23 10) = true ↔
    ∃ t, clock 22 30 < t ∧ t ≤ clock 23 10 ∧ Scheduled 3600 nightly t) := by
  intro hrt
  have hans : crossedAScheduledTime 3600 nightly (clock 22 30) (clock 23 10) = false := by
    decide
  rw [hans] at hrt
  refine absurd (hrt.mpr (exists_scheduled_iff.mpr ?_)) (by simp)
  exact ⟨daily (0, 0), List.mem_singleton_self _, by decide⟩

end Midnight

end Pingclair.RollSchedule
