import Mathlib.Tactic.Common

/-!
# A directory of files

Names are links to files; a file has a content, and keeps it while it is open even when no name
links to it any more. Each file has at most one name.
-/

/-- The links of a directory, the contents of all files, and the number of the next new file. -/
structure Directory (ν α : Type) where
  links : ν → Option Nat
  content : Nat → List α
  fresh : Nat
  bound : ∀ {n i}, links n = some i → i < fresh
  inj : ∀ {m n i}, links m = some i → links n = some i → m = n

namespace Directory

variable {ν α : Type} [DecidableEq ν]

def read (d : Directory ν α) (n : ν) : Option (List α) := (d.links n).map d.content

def append (d : Directory ν α) (i : Nat) (text : List α) : Directory ν α :=
  { d with content := Function.update d.content i (d.content i ++ text) }

def truncate (d : Directory ν α) (i : Nat) (text : List α) : Directory ν α :=
  { d with content := Function.update d.content i text }

def unlink (d : Directory ν α) (n : ν) : Directory ν α :=
  { d with
    links := Function.update d.links n none
    bound := by
      intro m i h
      rw [Function.update_apply] at h
      split at h
      · simp at h
      · exact d.bound h
    inj := by
      intro m m' i h h'
      rw [Function.update_apply] at h h'
      split at h
      · simp at h
      · split at h'
        · simp at h'
        · exact d.inj h h' }

def create (d : Directory ν α) (n : ν) (text : List α) : Directory ν α where
  links := Function.update d.links n (some d.fresh)
  content := Function.update d.content d.fresh text
  fresh := d.fresh + 1
  bound := by
    intro m i h
    rw [Function.update_apply] at h
    split at h
    · cases h
      exact Nat.lt_succ_self _
    · exact Nat.lt_succ_of_lt (d.bound h)
  inj := by
    intro m m' i h h'
    rw [Function.update_apply] at h h'
    split at h <;> split at h'
    · next hm hm' => rw [hm, hm']
    · cases h
      exact absurd (d.bound h') (Nat.lt_irrefl _)
    · cases h'
      exact absurd (d.bound h) (Nat.lt_irrefl _)
    · exact d.inj h h'

/-- Moves a file to another name, which loses the file that had it. -/
def rename (d : Directory ν α) (old new : ν) : Directory ν α :=
  { d with
    links := fun n => if n = old then none else if n = new then d.links old else d.links n
    bound := by
      intro m i h
      split at h
      · simp at h
      · split at h
        · exact d.bound h
        · exact d.bound h
    inj := by
      intro m m' i h h'
      split at h
      · simp at h
      · next hm =>
        split at h'
        · simp at h'
        · next hm' =>
          split at h <;> split at h'
          · next heq heq' => rw [heq, heq']
          · exact absurd (d.inj h h').symm hm'
          · exact absurd (d.inj h h') hm
          · exact d.inj h h' }

def write (d : Directory ν α) (n : ν) (text : List α) : Directory ν α :=
  match d.links n with
  | some i => d.truncate i text
  | none => d.create n text

def openAppend (d : Directory ν α) (n : ν) : Directory ν α × Nat :=
  match d.links n with
  | some i => (d, i)
  | none => (d.create n [], d.fresh)

variable {d : Directory ν α} {m n : ν} {i : Nat} {text : List α}

section Append

omit [DecidableEq ν]

theorem read_append_of_ne (h : d.links n = some i) (hne : m ≠ n) :
    (d.append i text).read m = d.read m := by
  simp only [read, append]
  cases hm : d.links m with
  | none => rfl
  | some j =>
    have hij : j ≠ i := by
      rintro rfl
      exact hne (d.inj hm h)
    simp [Function.update_of_ne hij]

end Append

theorem read_unlink_of_ne (hne : m ≠ n) : (d.unlink n).read m = d.read m := by
  simp [read, unlink, Function.update_of_ne hne]

theorem links_write_of_ne (hne : m ≠ n) : (d.write n text).links m = d.links m := by
  rw [write]
  split
  · rfl
  · simp [create, Function.update_of_ne hne]

theorem content_create_of_lt (h : i < d.fresh) : (d.create n text).content i = d.content i := by
  simp [create, Function.update_of_ne (Nat.ne_of_lt h)]

theorem read_create_of_ne (hne : m ≠ n) : (d.create n text).read m = d.read m := by
  have hlinks : (d.create n text).links m = d.links m := by
    simp [create, Function.update_of_ne hne]
  rw [read, read, hlinks]
  cases hm : d.links m with
  | none => rfl
  | some j => exact congrArg some (content_create_of_lt (d.bound hm))

theorem read_create : (d.create n text).read n = some text := by simp [read, create]

theorem read_rename_of_ne (hold : m ≠ n) {k : ν} (hnew : m ≠ k) :
    (d.rename n k).read m = d.read m := by
  simp [read, rename, hold, hnew]

end Directory
