import Mathlib.Data.List.Flatten
import Mathlib.Data.List.Perm.Subperm
import Pingclair.Lib.ByteText
import Pingclair.Lib.Directory
import Pingclair.Lib.Runs

/-!
# Rotating access logs

A writer gathers lines in a batch and adds the batch to the active file. When the file is due, it is
renamed to carry the time, compressed, and a new one is opened. Each of these may fail, and the
writer then goes on with the file it has open.

Lines are lost when a rotated file replaces an earlier one, and when it was compressed and removed
but no new file could be opened.
-/

namespace Pingclair.AccessLog

open ByteText List Option

/-- The files of a log: the active one, those rotated at a time, and those compressed. -/
inductive LogName
  | active
  | rotated (stamp : Bytes)
  | packed (stamp : Bytes)
  deriving DecidableEq

structure Codec where
  pack : Bytes → Bytes
  unpack : Bytes → Option Bytes
  unpack_pack : ∀ raw, unpack (pack raw) = some raw

inductive RotationCompression
  | none
  | gzip
  | zstd
  deriving DecidableEq

structure LogRotation where
  maxSizeBytes : Option Nat
  /-- Whether one of the triggers that read the clock is configured. -/
  timed : Bool
  compress : Bool
  rollCompression : Option Bytes

namespace LogRotation

def isEnabled (rotation : LogRotation) : Bool := rotation.maxSizeBytes.isSome || rotation.timed

/-- Naming an algorithm is the more specific of the two settings. -/
def compression (rotation : LogRotation) : RotationCompression :=
  if rotation.rollCompression = some (ascii "none") then .none
  else if rotation.rollCompression = some (ascii "gzip") then .gzip
  else if rotation.rollCompression = some (ascii "zstd") then .zstd
  else if rotation.compress then .gzip
  else .none

/-- Whether the active file is due; `due` is what the triggers that read the clock say. -/
def shouldRotate (rotation : LogRotation) (written : Nat) (due : Bool) : Bool :=
  rotation.maxSizeBytes.any (· ≤ written) || (rotation.timed && due)

end LogRotation

structure Settings where
  rotation : LogRotation
  gzip : Codec
  zstd : Codec

def Settings.codec (settings : Settings) : Option Codec :=
  match settings.rotation.compression with
  | .none => none
  | .gzip => some settings.gzip
  | .zstd => some settings.zstd

/-- What becomes of writing a whole file; a write that fails half way leaves some text. -/
inductive Writing
  | done
  | refused
  | torn (left : Bytes)
  deriving DecidableEq

structure Conditions where
  stamp : Bytes
  renames : Bool
  reads : Bool
  packs : Bool
  writing : Writing
  removes : Bool
  reopens : Bool

structure Files where
  dir : Directory LogName UInt8
  handle : Nat

namespace Files

variable (codec : Option Codec)

def write (files : Files) (text : Bytes) : Files :=
  { files with dir := files.dir.append files.handle text }

def compressRotated (dir : Directory LogName UInt8) (conditions : Conditions) :
    Directory LogName UInt8 :=
  match codec, dir.read (.rotated conditions.stamp) with
  | some codec, some raw =>
    if conditions.reads && conditions.packs then
      match conditions.writing with
      | .done =>
        let written := dir.write (.packed conditions.stamp) (codec.pack raw)
        if conditions.removes then written.unlink (.rotated conditions.stamp) else written
      | .refused => dir
      | .torn left => dir.write (.packed conditions.stamp) left
    else dir
  | _, _ => dir

/-- Renames the active file, compresses it and opens a new one; whether all went well. -/
def rotate (files : Files) (conditions : Conditions) : Files × Bool :=
  if conditions.renames && (files.dir.links .active).isSome then
    let renamed := files.dir.rename .active (.rotated conditions.stamp)
    let compressed := compressRotated codec renamed conditions
    if conditions.reopens then
      (⟨(compressed.openAppend .active).1, (compressed.openAppend .active).2⟩, true)
    else (⟨compressed, files.handle⟩, false)
  else (files, false)

end Files

def batchBytes : Nat := 64 * 1024

def newline : UInt8 := 0x0A

structure State where
  files : Files
  batch : Bytes
  written : Nat
  accepted : Bytes

/-- What the writer meets: a line, with what the clock and the file system do meanwhile, a request
to flush, or an empty queue. -/
inductive Event
  | line (text : Bytes) (due : Bool) (conditions : Conditions) (late : Bool)
  | flush
  | idle

namespace State

variable (settings : Settings)

def flush (s : State) : State :=
  if s.batch.isEmpty then s else { s with files := s.files.write s.batch, batch := [] }

def isDue (s : State) (due : Bool) : Bool :=
  settings.rotation.isEnabled && settings.rotation.shouldRotate s.written due

/-- Pending lines belong to the old file. -/
def rotate (s : State) (conditions : Conditions) : State :=
  let flushed := s.flush
  let rotated := flushed.files.rotate settings.codec conditions
  { flushed with files := rotated.1, written := if rotated.2 then 0 else flushed.written }

/-- Writes the batch if a line of some length has no room in it. -/
def makeRoom (s : State) (length : Nat) : State :=
  if batchBytes < s.batch.length + length + 1 then s.flush else s

def writeThrough (s : State) (line : Bytes) : State :=
  { s with files := s.files.write line, accepted := s.accepted ++ line }

def gather (s : State) (line : Bytes) : State :=
  { s with batch := s.batch ++ line, accepted := s.accepted ++ line }

def settle (s : State) (late : Bool) : State :=
  if s.batch.length = batchBytes ∨ late then s.flush else s

def put (s : State) (text : Bytes) (late : Bool) : State :=
  let room := makeRoom { s with written := s.written + text.length + 1 } text.length
  if batchBytes ≤ text.length then room.writeThrough (text ++ [newline])
  else (room.gather (text ++ [newline])).settle late

def step (s : State) : Event → State
  | .line text due conditions late =>
    (if s.isDue settings due then s.rotate settings conditions else s).put text late
  | .flush => s.flush
  | .idle => s.flush

end State

def machine (settings : Settings) (files : Files) (written : Nat) : Machine State Event :=
  ⟨⟨files, [], written, []⟩, State.step settings⟩

def text (settings : Settings) (dir : Directory LogName UInt8) (name : LogName) : Option Bytes :=
  match name with
  | .packed _ => (dir.read name).bind fun packed =>
      settings.codec.bind fun codec => codec.unpack packed
  | _ => dir.read name

def texts (settings : Settings) (dir : Directory LogName UInt8) (names : List LogName) : Bytes :=
  names.flatMap fun name => (text settings dir name).getD []

/-- All lines are in the files that are there, in order. -/
def Present (settings : Settings) (s : State) : Prop :=
  ∃ names before, names.Nodup ∧ (∀ name ∈ names, (text settings s.files.dir name).isSome) ∧
    texts settings s.files.dir names = before ++ s.accepted

/-- Whether a rotation removes the file that it compressed. -/
def Conditions.removesRotated (conditions : Conditions) (codec : Option Codec) : Bool :=
  codec.isSome && conditions.reads && conditions.packs && conditions.writing = .done &&
    conditions.removes

/-- A rotation takes names that no file has, and opens a new file if it removes the old one. -/
structure Sound (codec : Option Codec) (files : Files) (conditions : Conditions) : Prop where
  rotated_free : files.dir.links (.rotated conditions.stamp) = none
  packed_free : codec.isSome → files.dir.links (.packed conditions.stamp) = none
  reopens : conditions.removesRotated codec = true → conditions.reopens = true

/-- Every rotation that renames the active file is sound. -/
def Rotates (settings : Settings) (s : State) : Event → Prop
  | .line _ due conditions _ => s.isDue settings due = true → conditions.renames = true →
      (s.files.dir.links .active).isSome → Sound settings.codec s.files conditions
  | .flush => True
  | .idle => True

/-! ### What files hold -/

section Holds

variable {settings : Settings} {dir dir' : Directory LogName UInt8} {files : Files}
  {archives : List LogName} {current name : LogName} {said : Bytes}

theorem text_congr (h : dir'.read name = dir.read name) :
    text settings dir' name = text settings dir name := by
  cases name <;> simp [text, h]

theorem texts_congr {names : List LogName} (h : ∀ name ∈ names, dir'.read name = dir.read name) :
    texts settings dir' names = texts settings dir names := by
  exact flatMap_congr fun name hn => by rw [text_congr (h name hn)]

/-- The archives and the file that is open say something. The open file is the active one, or one
that was rotated while no new one could be opened. -/
structure Holds (settings : Settings) (files : Files) (archives : List LogName)
    (current : LogName) (said : Bytes) : Prop where
  linked : files.dir.links current = some files.handle
  placed : current = .active ∨ (∃ stamp, current = .rotated stamp) ∧ files.dir.links .active = none
  nodup : archives.Nodup
  apart : current ∉ archives
  readable : ∀ name ∈ archives, (text settings files.dir name).isSome
  whole : texts settings files.dir archives ++ files.dir.content files.handle = said

theorem isSome_of_text (h : (text settings dir name).isSome) : (dir.links name).isSome := by
  have hread : (dir.read name).isSome := by
    cases name with
    | active => exact h
    | rotated stamp => exact h
    | packed stamp =>
      cases hread : dir.read (.packed stamp) with
      | none => simp [text, hread] at h
      | some packed => rfl
  simpa [Directory.read] using hread

theorem texts_concat (settings : Settings) (dir : Directory LogName UInt8)
    (names : List LogName) (name : LogName) :
    texts settings dir (names ++ [name]) =
      texts settings dir names ++ (text settings dir name).getD [] := by
  simp [texts]

/-- Some files of a directory say something, each once. -/
structure Say (settings : Settings) (dir : Directory LogName UInt8) (names : List LogName)
    (said : Bytes) : Prop where
  nodup : names.Nodup
  readable : ∀ name ∈ names, (text settings dir name).isSome
  whole : texts settings dir names = said

section Kept

variable (h : Holds settings files archives current said)

include h

theorem Holds.read_current :
    text settings files.dir current = some (files.dir.content files.handle) := by
  have hrd : files.dir.read current = some (files.dir.content files.handle) := by
    simp [Directory.read, h.linked]
  rcases h.placed with rfl | ⟨⟨s, rfl⟩, -⟩
  · exact hrd
  · exact hrd

theorem Holds.ne_current (hn : name ∈ archives) : name ≠ current := by
  rintro rfl
  exact h.apart hn

theorem Holds.write (more : Bytes) :
    Holds settings (files.write more) archives current (said ++ more) := by
  have hrd : ∀ name ∈ archives, (files.write more).dir.read name = files.dir.read name :=
    fun name hn => Directory.read_append_of_ne h.linked (h.ne_current hn)
  refine ⟨h.linked, h.placed, h.nodup, h.apart, fun name hn => ?_, ?_⟩
  · rw [text_congr (hrd name hn)]
    exact h.readable name hn
  · rw [texts_congr hrd, ← h.whole]
    simp [Files.write, Directory.append]

theorem Holds.not_mem_of_free (hfree : files.dir.links name = none) : name ∉ archives := by
  intro hn
  have hs := isSome_of_text (h.readable name hn)
  rw [hfree] at hs
  simp at hs

theorem Holds.say : Say settings files.dir (archives ++ [current]) said := by
  refine ⟨?_, fun name hname => ?_, ?_⟩
  · rw [nodup_append]
    refine ⟨h.nodup, by simp, fun name hname o ho => ?_⟩
    rw [mem_singleton.mp ho]
    exact h.ne_current hname
  · rcases mem_append.mp hname with hname | hname
    · exact h.readable name hname
    · rw [mem_singleton.mp hname, h.read_current]
      rfl
  · rw [texts_concat, h.read_current, getD_some, h.whole]

/-- What the archives say and what the open file holds may be found in another directory. -/
theorem Holds.transfer {files' : Files}
    {current' : LogName} (hlinked : files'.dir.links current' = some files'.handle)
    (hplaced : current' = .active ∨
      (∃ stamp, current' = .rotated stamp) ∧ files'.dir.links .active = none)
    (hapart : current' ∉ archives)
    (hrd : ∀ name ∈ archives, files'.dir.read name = files.dir.read name)
    (hcontent : files'.dir.content files'.handle = files.dir.content files.handle) :
    Holds settings files' archives current' said := by
  refine ⟨hlinked, hplaced, h.nodup, hapart, fun name hn => ?_, ?_⟩
  · rw [text_congr (hrd name hn)]
    exact h.readable name hn
  · rw [texts_congr hrd, hcontent]
    exact h.whole

/-- A new file beside the log changes nothing in it. -/
theorem Holds.create (hfree : files.dir.links name = none) (hn : name ≠ .active) (text : Bytes) :
    Holds settings ⟨files.dir.create name text, files.handle⟩ archives current said := by
  have hcur : current ≠ name := by
    rintro rfl
    rw [h.linked] at hfree
    simp at hfree
  apply h.transfer
  · simp [Directory.create, Function.update_of_ne hcur, h.linked]
  · have hactive : (files.dir.create name text).links .active = files.dir.links .active :=
      Function.update_of_ne hn.symm _ _
    rw [hactive]
    exact h.placed
  · exact h.apart
  · intro o ho
    apply Directory.read_create_of_ne
    rintro rfl
    exact h.not_mem_of_free hfree ho
  · exact Directory.content_create_of_lt (files.dir.bound h.linked)

end Kept

theorem Say.reopen (h : Say settings dir archives said) (hfree : dir.links .active = none) :
    Holds settings ⟨(dir.openAppend .active).1, (dir.openAppend .active).2⟩ archives .active
      said := by
  have hop : dir.openAppend .active = (dir.create .active [], dir.fresh) := by
    simp [Directory.openAppend, hfree]
  have hactive : .active ∉ archives := by
    intro hmem
    have hs := isSome_of_text (h.readable .active hmem)
    rw [hfree] at hs
    simp at hs
  have hrd : ∀ name ∈ archives, (dir.create .active []).read name = dir.read name := by
    intro name hn
    apply Directory.read_create_of_ne
    rintro rfl
    exact hactive hn
  rw [hop]
  refine ⟨by simp [Directory.create], .inl rfl, h.nodup, hactive, fun name hn => ?_, ?_⟩
  · rw [text_congr (hrd name hn)]
    exact h.readable name hn
  · rw [texts_congr hrd, h.whole]
    simp [Directory.create]

theorem Holds.rename (h : Holds settings files archives .active said) {stamp : Bytes}
    (hfree : files.dir.links (.rotated stamp) = none) :
    Holds settings ⟨files.dir.rename .active (.rotated stamp), files.handle⟩ archives
      (.rotated stamp) said := by
  have hapart := h.not_mem_of_free hfree
  apply h.transfer
  · simp [Directory.rename, h.linked]
  · exact .inr ⟨⟨stamp, rfl⟩, by simp [Directory.rename]⟩
  · exact hapart
  · intro name hn
    apply Directory.read_rename_of_ne (h.ne_current hn)
    rintro rfl
    exact hapart hn
  · rfl

/-- The compressed copy takes over from the file that was rotated. -/
theorem Holds.pack {stamp : Bytes} (h : Holds settings files archives (.rotated stamp) said)
    {codec : Codec} (hcodec : settings.codec = some codec)
    (hfree : files.dir.links (.packed stamp) = none) :
    Say settings ((files.dir.create (.packed stamp)
      (codec.pack (files.dir.content files.handle))).unlink (.rotated stamp))
      (archives ++ [.packed stamp]) said := by
  have hread : ∀ name ∈ archives, ((files.dir.create (.packed stamp)
      (codec.pack (files.dir.content files.handle))).unlink (.rotated stamp)).read name =
        files.dir.read name := by
    intro name hname
    rw [Directory.read_unlink_of_ne (h.ne_current hname), Directory.read_create_of_ne]
    rintro rfl
    exact h.not_mem_of_free hfree hname
  have hpk : text settings ((files.dir.create (.packed stamp)
      (codec.pack (files.dir.content files.handle))).unlink (.rotated stamp)) (.packed stamp) =
        some (files.dir.content files.handle) := by
    rw [text, Directory.read_unlink_of_ne (by simp), Directory.read_create, hcodec]
    exact codec.unpack_pack _
  refine ⟨?_, fun name hname => ?_, ?_⟩
  · rw [nodup_append]
    refine ⟨h.nodup, by simp, fun name hname o ho => ?_⟩
    rw [mem_singleton.mp ho]
    rintro rfl
    exact h.not_mem_of_free hfree hname
  · rcases mem_append.mp hname with hname | hname
    · rw [text_congr (hread name hname)]
      exact h.readable name hname
    · rw [mem_singleton.mp hname, hpk]
      rfl
  · rw [texts_concat, hpk, texts_congr hread]
    exact h.whole

theorem write_of_free (hfree : dir.links name = none) (text : Bytes) :
    dir.write name text = dir.create name text := by
  simp [Directory.write, hfree]

variable {conditions : Conditions}

/-- Compressing leaves the names alone that carry another time. -/
theorem links_compressRotated (codec : Option Codec) (dir : Directory LogName UInt8)
    (hrot : name ≠ .rotated conditions.stamp) (hpk : name ≠ .packed conditions.stamp) :
    (Files.compressRotated codec dir conditions).links name = dir.links name := by
  unfold Files.compressRotated
  split
  · split
    · split
      · split
        · simp [Directory.unlink, Function.update_of_ne hrot, Directory.links_write_of_ne hpk]
        · exact Directory.links_write_of_ne hpk
      · rfl
      · exact Directory.links_write_of_ne hpk
    · rfl
  · rfl

/-- A rotation leaves the names alone that carry another time. -/
theorem links_rotate (codec : Option Codec) (files : Files) (hactive : name ≠ .active)
    (hrot : name ≠ .rotated conditions.stamp) (hpk : name ≠ .packed conditions.stamp) :
    (files.rotate codec conditions).1.dir.links name = files.dir.links name := by
  have hrenamed : (files.dir.rename .active (.rotated conditions.stamp)).links name =
      files.dir.links name := by
    simp [Directory.rename, hactive, hrot]
  have hcmp := (links_compressRotated codec _ hrot hpk).trans hrenamed
  rw [Files.rotate]
  split
  · split
    · simp only [Directory.openAppend]
      split
      · exact hcmp
      · simpa [Directory.create, Function.update_of_ne hactive] using hcmp
    · exact hcmp
  · rfl

/-- A rotated file that is compressed stays, or its compressed copy does. -/
theorem Holds.compressRotated (h : Holds settings files archives (.rotated conditions.stamp) said)
    (hfree : settings.codec.isSome → files.dir.links (.packed conditions.stamp) = none) :
    Holds settings ⟨Files.compressRotated settings.codec files.dir conditions, files.handle⟩
        archives (.rotated conditions.stamp) said ∨
      conditions.removesRotated settings.codec = true ∧
        Say settings (Files.compressRotated settings.codec files.dir conditions)
          (archives ++ [.packed conditions.stamp]) said := by
  have hrd : files.dir.read (.rotated conditions.stamp) =
      some (files.dir.content files.handle) := by
    simp [Directory.read, h.linked]
  cases hcodec : settings.codec with
  | none => exact .inl (by simpa [Files.compressRotated] using h)
  | some codec =>
    have hpk := hfree (by rw [hcodec]; rfl)
    simp only [Files.compressRotated, hrd, Conditions.removesRotated]
    cases hready : conditions.reads && conditions.packs with
    | false => exact .inl (by simpa using h)
    | true =>
      cases hwriting : conditions.writing with
      | refused => exact .inl h
      | torn l =>
        refine .inl ?_
        simp only [write_of_free hpk]
        exact h.create hpk (by simp) l
      | done =>
        simp only [write_of_free hpk]
        cases hremoves : conditions.removes with
        | false => exact .inl (h.create hpk (by simp) _)
        | true =>
          refine .inr ⟨?_, h.pack hcodec hpk⟩
          simp [hready]

/-- A sound rotation keeps what the files say. -/
theorem Holds.rotate (h : Holds settings files archives current said)
    (hsd : conditions.renames = true → (files.dir.links .active).isSome →
      Sound settings.codec files conditions) :
    ∃ archives current,
      Holds settings (files.rotate settings.codec conditions).1 archives current said := by
  unfold Files.rotate
  split
  · next hren =>
    rw [Bool.and_eq_true] at hren
    have hrot := hsd hren.1 hren.2
    -- While a rotated file is open there is no active one, and nothing to rename.
    obtain rfl : current = .active := by
      rcases h.placed with hactive | ⟨-, hnone⟩
      · exact hactive
      · rw [hnone] at hren
        exact absurd hren.2 (by simp)
    have hrenamed := h.rename hrot.rotated_free
    have hactive : (files.dir.rename .active (.rotated conditions.stamp)).links .active = none := by
      simp [Directory.rename]
    have hpk : settings.codec.isSome →
        (files.dir.rename .active (.rotated conditions.stamp)).links (.packed conditions.stamp) =
          none := by
      intro hcodec
      simpa [Directory.rename] using hrot.packed_free hcodec
    have hcl : (Files.compressRotated settings.codec
        (files.dir.rename .active (.rotated conditions.stamp)) conditions).links .active = none :=
      (links_compressRotated settings.codec _ LogName.noConfusion LogName.noConfusion).trans hactive
    rcases hrenamed.compressRotated hpk with hcmp | ⟨hremoved, hsay⟩
    · split
      · exact ⟨_, _, hcmp.say.reopen hcl⟩
      · exact ⟨_, _, hcmp⟩
    · split
      · exact ⟨_, _, hsay.reopen hcl⟩
      · next hreopens => exact absurd (hrot.reopens hremoved) hreopens
  · exact ⟨_, _, h⟩

end Holds

section Runs

variable {settings : Settings} {s : State}

/-- What the files say and what is in the batch are the lines that were taken, after what was there
before. -/
def Kept (settings : Settings) (s : State) : Prop :=
  ∃ archives current before said, Holds settings s.files archives current said ∧
    said ++ s.batch = before ++ s.accepted

theorem batch_flush (s : State) : s.flush.batch = [] := by
  rw [State.flush]
  split
  · next hem => exact isEmpty_iff.mp hem
  · rfl

theorem links_flush (s : State) : s.flush.files.dir.links = s.files.dir.links := by
  rw [State.flush]
  split <;> rfl

theorem batch_makeRoom {length : Nat} (hlarge : batchBytes ≤ length) (s : State) :
    (s.makeRoom length).batch = [] := by
  have hfull : batchBytes < s.batch.length + length + 1 := by omega
  rw [State.makeRoom, if_pos hfull]
  exact batch_flush s

section Steps

variable (h : Kept settings s)

include h

theorem Kept.flush : Kept settings s.flush := by
  obtain ⟨a, c, before, sd, hhl, heq⟩ := h
  rw [State.flush]
  split
  · exact ⟨a, c, before, sd, hhl, heq⟩
  · exact ⟨a, c, before, sd ++ s.batch, hhl.write s.batch, by simpa using heq⟩

theorem Kept.rotate {conditions : Conditions}
    (hsd : conditions.renames = true → (s.files.dir.links .active).isSome →
      Sound settings.codec s.files conditions) : Kept settings (s.rotate settings conditions) := by
  obtain ⟨a, c, before, sd, hhl, heq⟩ := h.flush
  have hflushed : conditions.renames = true → (s.flush.files.dir.links .active).isSome →
      Sound settings.codec s.flush.files conditions := by
    intro hren hactive
    rw [links_flush] at hactive
    obtain ⟨hrot, hpk, hreopens⟩ := hsd hren hactive
    exact ⟨by rwa [links_flush], by rwa [links_flush], hreopens⟩
  obtain ⟨a', c', hrot⟩ := hhl.rotate hflushed
  exact ⟨a', c', before, sd, hrot, heq⟩

theorem Kept.gather (line : Bytes) : Kept settings (s.gather line) := by
  obtain ⟨a, c, before, sd, hhl, heq⟩ := h
  refine ⟨a, c, before, sd, hhl, ?_⟩
  rw [State.gather, ← append_assoc, heq, append_assoc]

theorem Kept.writeThrough (hbatch : s.batch = []) (line : Bytes) :
    Kept settings (s.writeThrough line) := by
  obtain ⟨a, c, before, sd, hhl, heq⟩ := h
  refine ⟨a, c, before, sd ++ line, hhl.write line, ?_⟩
  rw [hbatch, append_nil] at heq
  simp [State.writeThrough, hbatch, heq]

theorem Kept.makeRoom (length : Nat) : Kept settings (s.makeRoom length) := by
  rw [State.makeRoom]
  split
  · exact h.flush
  · exact h

theorem Kept.settle (late : Bool) : Kept settings (s.settle late) := by
  rw [State.settle]
  split
  · exact h.flush
  · exact h

theorem Kept.put (text : Bytes) (late : Bool) : Kept settings (s.put text late) := by
  have hcntd : Kept settings { s with written := s.written + text.length + 1 } := h
  have hrm := hcntd.makeRoom text.length
  rw [State.put]
  split
  · next hlarge => exact hrm.writeThrough (batch_makeRoom hlarge _) _
  · exact (hrm.gather _).settle late

/-- Every step with a sound rotation, or none, keeps the lines. -/
theorem Kept.step {ev : Event} (hrotates : Rotates settings s ev) :
    Kept settings (s.step settings ev) := by
  cases ev with
  | line text due conditions l =>
    rw [State.step]
    split
    · next hdu => exact (h.rotate (hrotates hdu)).put text l
    · exact h.put text l
  | flush => exact h.flush
  | idle => exact h.flush

theorem Kept.present (hbatch : s.batch = []) : Present settings s := by
  obtain ⟨a, c, before, sd, hhl, heq⟩ := h
  rw [hbatch, append_nil] at heq
  exact ⟨a ++ [c], before, hhl.say.nodup, hhl.say.readable, hhl.say.whole.trans heq⟩

end Steps

theorem kept_start {files : Files} (hfiles : files.dir.links .active = some files.handle)
    (written : Nat) : Kept settings (machine settings files written).start := by
  refine ⟨[], .active, files.dir.content files.handle, files.dir.content files.handle, ?_, rfl⟩
  exact ⟨hfiles, .inl rfl, nodup_nil, not_mem_nil, fun _ h => absurd h not_mem_nil,
    rfl⟩

/-- After a flush, every line that was taken is in the files that are there, in order, in runs in
which every rotation takes free names and opens a new file once it has removed the old one. -/
theorem present_of_flush {files : Files} (hfiles : files.dir.links .active = some files.handle)
    {written : Nat} (h : (machine settings files written).Reachable (Rotates settings) s) :
    Present settings (s.step settings .flush) := by
  have hkp : Kept settings s :=
    h.invariant (I := Kept settings) (kept_start hfiles written) fun _ _ hkp hrotates =>
      hkp.step hrotates
  exact hkp.flush.present (batch_flush s)

end Runs

section Short

variable {settings : Settings} {s : State} {names : List LogName}

/-- Every file of the log is one of some. -/
def Among (names : List LogName) (s : State) : Prop :=
  ∀ name, (s.files.dir.links name).isSome → name ∈ names

/-- A rotation takes names among some. -/
def Stamps (names : List LogName) : Event → Prop
  | .line _ _ conditions _ => .rotated conditions.stamp ∈ names ∧ .packed conditions.stamp ∈ names
  | .flush => True
  | .idle => True

theorem Among.flush (h : Among names s) : Among names s.flush := by
  intro name hn
  rw [links_flush] at hn
  exact h name hn

theorem links_put (s : State) (text : Bytes) (late : Bool) :
    (s.put text late).files.dir.links = s.files.dir.links := by
  have hrm : ∀ (s : State) (l : Nat), (s.makeRoom l).files.dir.links = s.files.dir.links := by
    intro s l
    rw [State.makeRoom]
    split
    · exact links_flush s
    · rfl
  rw [State.put]
  split
  · exact hrm _ _
  · rw [State.settle]
    split
    · exact (links_flush _).trans (hrm _ _)
    · exact hrm _ _

theorem Among.rotate (h : Among names s) (hactive : .active ∈ names) {conditions : Conditions}
    (hrot : .rotated conditions.stamp ∈ names) (hpk : .packed conditions.stamp ∈ names) :
    Among names (s.rotate settings conditions) := by
  intro name hn
  by_contra hnt
  have hlinks : (s.rotate settings conditions).files.dir.links name = s.files.dir.links name :=
    (links_rotate settings.codec s.flush.files (ne_of_mem_of_not_mem hactive hnt).symm
      (ne_of_mem_of_not_mem hrot hnt).symm (ne_of_mem_of_not_mem hpk hnt).symm).trans
      (congrFun (links_flush s) name)
  rw [hlinks] at hn
  exact hnt (h name hn)

theorem Among.step (h : Among names s) (hactive : .active ∈ names) {ev : Event}
    (hstamps : Stamps names ev) : Among names (s.step settings ev) := by
  cases ev with
  | line text due conditions l =>
    intro name hn
    rw [State.step, links_put] at hn
    split at hn
    · exact h.rotate hactive hstamps.1 hstamps.2 name hn
    · exact h name hn
  | flush => exact h.flush
  | idle => exact h.flush

theorem not_present_of_short (hns : Among names s)
    (hsh : (texts settings s.files.dir names).length < s.accepted.length) :
    ¬ Present settings s := by
  rintro ⟨files, before, hnd, hrdb, heq⟩
  have hsubperm : files.Subperm names :=
    hnd.subperm fun name hn => hns name (isSome_of_text (hrdb name hn))
  obtain ⟨sr, hperm, hsublist⟩ := hsubperm
  have hle : (texts settings s.files.dir files).length ≤
      (texts settings s.files.dir names).length := by
    unfold texts
    rw [← (hperm.flatMap_right _).length_eq]
    exact (hsublist.flatMap _).length_le
  rw [heq, length_append] at hle
  omega

end Short

namespace Lost

def plain : Codec := ⟨id, some, fun _ => rfl⟩

def settings (compress : Bool) : Settings := ⟨⟨some 1, false, compress, none⟩, plain, plain⟩

def files : Files where
  dir :=
    { links := fun name => if name = .active then some 0 else none
      content := fun _ => []
      fresh := 1
      bound := by
        intro name i h
        split at h
        · cases h
          exact Nat.one_pos
        · simp at h
      inj := by
        intro name other i h h'
        split at h
        · next heq =>
          split at h'
          · next heq' => rw [heq, heq']
          · simp at h'
        · exact absurd h (by simp) }
  handle := 0

def line (text stamp : String) (reopens : Bool) : Event :=
  .line (ascii text) false ⟨ascii stamp, true, true, true, .done, true, reopens⟩ false

def ordinary : List Event := [line "a" "s" true, line "b" "t" true, line "c" "u" true]

theorem present_ordinary :
    Present (settings true)
      (((machine (settings true) files 0).run ordinary).step (settings true) .flush) := by
  apply present_of_flush rfl (Machine.reachable_run _)
  refine ⟨fun hdu => absurd hdu (by decide), fun _ _ _ => ?_, fun _ _ _ => ?_, trivial⟩
  · exact ⟨rfl, fun _ => rfl, fun _ => rfl⟩
  · exact ⟨rfl, fun _ => rfl, fun _ => rfl⟩

/-- The clock shows a time again. -/
def sameTime : List Event := [line "a" "t" true, line "b" "t" true, line "c" "t" true, .flush]

/-- No new file can be opened behind a compressed one. -/
def halfWay : List Event := [line "a" "t" true, line "b" "t" false, .flush]

def names : List LogName := [.active, .rotated (ascii "t"), .packed (ascii "t")]

instance decidableStamps : ∀ event, Decidable (Stamps names event)
  | .line _ _ conditions _ => inferInstanceAs (Decidable (.rotated conditions.stamp ∈ names ∧
      .packed conditions.stamp ∈ names))
  | .flush => inferInstanceAs (Decidable True)
  | .idle => inferInstanceAs (Decidable True)

theorem among_run {compress : Bool} {evs : List Event}
    (h : (machine (settings compress) files 0).Allows (fun _ => Stamps names)
      (machine (settings compress) files 0).start evs) :
    Among names ((machine (settings compress) files 0).run evs) := by
  refine (Machine.reachable_run h).invariant (I := Among names) ?_ fun s e hs hstamps =>
    hs.step mem_cons_self hstamps
  intro name hn
  cases name with
  | active => exact mem_cons_self
  | rotated st => exact absurd hn Bool.false_ne_true
  | packed st => exact absurd hn Bool.false_ne_true

/-- In both runs a line that was flushed is in no file. -/
theorem not_present :
    ¬ Present (settings false) ((machine (settings false) files 0).run sameTime) ∧
      ¬ Present (settings true) ((machine (settings true) files 0).run halfWay) :=
  ⟨not_present_of_short (among_run (by decide)) (by decide),
    not_present_of_short (among_run (by decide)) (by decide)⟩

end Lost

end Pingclair.AccessLog
