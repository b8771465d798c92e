import Mathlib.Data.List.Chain
import Pingclair.Lib.ByteText

/-!
# UTF-8

A machine reads a text byte by byte and keeps the ranges of the continuation bytes that are still
owed. `Valid` texts leave nothing owed and are never refused. `lossy` puts U+FFFD in the place of
every maximal ill-formed sequence. `Str` is a text with the proof that it is valid.
-/

namespace Utf8

open ByteText List Option

/-- The bytes a continuation position accepts, both ends included. -/
abbrev Range := UInt8 × UInt8

/-- The continuation bytes that a character's first byte asks for. -/
def owed (b : UInt8) : Option (List Range) :=
  if b < 0x80 then some []
  else if 0xC2 ≤ b ∧ b ≤ 0xDF then some [(0x80, 0xBF)]
  else if b = 0xE0 then some [(0xA0, 0xBF), (0x80, 0xBF)]
  else if 0xE1 ≤ b ∧ b ≤ 0xEC then some [(0x80, 0xBF), (0x80, 0xBF)]
  else if b = 0xED then some [(0x80, 0x9F), (0x80, 0xBF)]
  else if 0xEE ≤ b ∧ b ≤ 0xEF then some [(0x80, 0xBF), (0x80, 0xBF)]
  else if b = 0xF0 then some [(0x90, 0xBF), (0x80, 0xBF), (0x80, 0xBF)]
  else if 0xF1 ≤ b ∧ b ≤ 0xF3 then some [(0x80, 0xBF), (0x80, 0xBF), (0x80, 0xBF)]
  else if b = 0xF4 then some [(0x80, 0x8F), (0x80, 0xBF), (0x80, 0xBF)]
  else none

/-- Whether a text completes the character it starts in and then is a sequence of
characters. -/
def validFrom : List Range → Bytes → Bool
  | [], [] => true
  | _ :: _, [] => false
  | [], b :: rest =>
    match owed b with
    | none => false
    | some ranges => validFrom ranges rest
  | (lo, hi) :: ranges, b :: rest => decide (lo ≤ b ∧ b ≤ hi) && validFrom ranges rest

def valid (s : Bytes) : Bool := validFrom [] s

@[ext] structure Str where
  bytes : Bytes
  isValid : valid bytes = true
  deriving DecidableEq

def replacement : Bytes := [0xEF, 0xBF, 0xBD]

/-- The repaired text. `pending` holds the bytes read of the character still open. A
byte that the open character refuses is read again as the first of a new one. -/
def lossyFrom : List Range → Bytes → Bytes → Bytes
  | [], _, [] => []
  | _ :: _, _, [] => replacement
  | [], _, b :: rest =>
    match owed b with
    | none => replacement ++ lossyFrom [] [] rest
    | some [] => b :: lossyFrom [] [] rest
    | some (range :: ranges) => lossyFrom (range :: ranges) [b] rest
  | (lo, hi) :: ranges, pending, b :: rest =>
    if lo ≤ b ∧ b ≤ hi then
      match ranges with
      | [] => pending ++ b :: lossyFrom [] [] rest
      | range :: ranges => lossyFrom (range :: ranges) (pending ++ [b]) rest
    else
      replacement ++ match owed b with
        | none => replacement ++ lossyFrom [] [] rest
        | some [] => b :: lossyFrom [] [] rest
        | some (range :: ranges) => lossyFrom (range :: ranges) [b] rest

def lossy (s : Bytes) : Bytes := lossyFrom [] [] s

def isContinuation (b : UInt8) : Bool := decide (b &&& 0xC0 = 0x80)

/-- The bytes of the first character: its first byte and the continuation bytes that
follow. -/
def firstChar : Bytes → Bytes
  | [] => []
  | b :: rest => b :: rest.takeWhile isContinuation

variable {s t : Bytes} {ranges : List Range}

theorem validFrom_append (hs : validFrom ranges s = true) :
    validFrom ranges (s ++ t) = valid t := by
  induction s generalizing ranges with
  | nil =>
    cases ranges with
    | nil => rfl
    | cons range ranges => simp [validFrom] at hs
  | cons b s ih =>
    cases ranges with
    | nil =>
      simp only [validFrom, cons_append] at hs ⊢
      cases ho : owed b with
      | none => simp [ho] at hs
      | some ranges =>
        simp only [ho] at hs
        exact ih hs
    | cons range ranges =>
      simp only [validFrom, cons_append, Bool.and_eq_true] at hs ⊢
      rw [ih hs.2, hs.1, Bool.true_and]

theorem valid_append (hs : valid s = true) : valid (s ++ t) = valid t := validFrom_append hs

variable {b : UInt8}

theorem valid_cons_ascii (hb : b < 0x80) : valid (b :: s) = valid s := by
  simp [valid, validFrom, owed, hb]

theorem valid_of_ascii (h : ∀ b ∈ s, b < 0x80) : valid s = true := by
  induction s with
  | nil => rfl
  | cons b s ih =>
    rw [valid_cons_ascii (h b (by simp))]
    exact ih fun c hc => h c (by simp [hc])

theorem valid_rooted {sep : UInt8} (hsep : sep < 0x80) {segs : List Bytes}
    (h : ∀ seg ∈ segs, valid seg = true) : valid (rooted sep segs) = true := by
  induction segs with
  | nil => rfl
  | cons seg segs ih =>
    rw [rooted_cons, cons_append, valid_cons_ascii hsep, valid_append (h seg mem_cons_self)]
    exact ih (forall_mem_cons.mp h).2

/-- What may follow a byte of a valid text: behind a first byte of several, one that
continues it. -/
def Follows (a b : UInt8) : Prop := 0xC0 ≤ a → 0x80 ≤ b ∧ b < 0xC0

theorem owed_ranges (h : owed b = some ranges) :
    (∀ r ∈ ranges, 0x80 ≤ r.1 ∧ r.2 < 0xC0) ∧ (0xC0 ≤ b → ranges ≠ []) := by
  unfold owed at h
  split_ifs at h <;> cases h <;> grind

theorem isChain_validFrom (hrs : ∀ r ∈ ranges, 0x80 ≤ r.1 ∧ r.2 < 0xC0)
    (h : validFrom ranges s = true) :
    s.IsChain Follows ∧ (ranges ≠ [] → ∀ b ∈ s.head?, 0x80 ≤ b ∧ b < 0xC0) := by
  induction s generalizing ranges with
  | nil => simp
  | cons b s ih =>
    match ranges with
    | [] =>
      rw [validFrom] at h
      cases ho : owed b with
      | none => simp [ho] at h
      | some ranges =>
        simp only [ho] at h
        obtain ⟨hchn, hhd⟩ := ih (owed_ranges ho).1 h
        refine ⟨isChain_cons.mpr ⟨?_, hchn⟩, by simp⟩
        exact fun c hc hb => hhd ((owed_ranges ho).2 hb) c hc
    | (lo, hi) :: ranges =>
      simp only [validFrom, Bool.and_eq_true, decide_eq_true_eq] at h
      simp only [forall_mem_cons] at hrs
      have hb : 0x80 ≤ b ∧ b < 0xC0 := by grind
      refine ⟨isChain_cons.mpr ⟨?_, (ih hrs.2 h.2).1⟩, by simpa using hb⟩
      exact fun c _ hc => absurd hb.2 (by grind)

theorem isChain_valid (h : valid s = true) : s.IsChain Follows := (isChain_validFrom (by simp) h).1

theorem validFrom_of_append_ascii (hb : b < 0x80) (hrs : ∀ r ∈ ranges, 0x80 ≤ r.1 ∧ r.2 < 0xC0)
    (h : validFrom ranges (s ++ b :: t) = true) : validFrom ranges s = true := by
  induction s generalizing ranges with
  | nil =>
    cases ranges with
    | nil => rfl
    | cons range ranges =>
      simp only [nil_append, validFrom, Bool.and_eq_true, decide_eq_true_eq] at h
      grind
  | cons c s ih =>
    match ranges with
    | [] =>
      rw [cons_append, validFrom] at h
      rw [validFrom]
      cases ho : owed c with
      | none => simp [ho] at h
      | some ranges =>
        simp only [ho] at h
        exact ih (owed_ranges ho).1 h
    | (lo, hi) :: ranges =>
      simp only [cons_append, validFrom, Bool.and_eq_true] at h
      rw [validFrom, h.1]
      exact ih (fun r hr => hrs r (by simp [hr])) h.2

theorem valid_of_append_ascii (hb : b < 0x80) (h : valid (s ++ b :: t) = true) :
    valid s = true ∧ valid t = true := by
  have hs : valid s = true := validFrom_of_append_ascii hb (by simp) h
  rw [valid_append hs, valid_cons_ascii hb] at h
  exact ⟨hs, h⟩

namespace Str

def append (s t : Str) : Str :=
  ⟨s.bytes ++ t.bytes, by rw [valid_append s.isValid, t.isValid]⟩

def splitOnce (sep : UInt8) (hsep : sep < 0x80) (s : Str) : Option (Str × Str) :=
  match h : ByteText.splitOnce sep s.bytes with
  | none => none
  | some (t, u) =>
    have hvalid : valid t = true ∧ valid u = true :=
      valid_of_append_ascii hsep (by rw [← (splitOnce_eq_some h).1]; exact s.isValid)
    some (⟨t, hvalid.1⟩, ⟨u, hvalid.2⟩)

theorem bytes_splitOnce {sep : UInt8} (hsep : sep < 0x80) (s : Str) :
    (s.splitOnce sep hsep).map (fun parts => (parts.1.bytes, parts.2.bytes)) =
      ByteText.splitOnce sep s.bytes := by
  rw [splitOnce]
  split
  · next h => exact h.symm
  · next h => exact h.symm

def get? (s : Str) (offset : Nat) : Option Str :=
  if h : valid (s.bytes.drop offset) = true then some ⟨s.bytes.drop offset, h⟩ else none

end Str

theorem lossyFrom_of_refused {lo hi : UInt8} (hin : ¬ (lo ≤ b ∧ b ≤ hi)) (pending : Bytes) :
    lossyFrom ((lo, hi) :: ranges) pending (b :: s) = replacement ++ lossyFrom [] [] (b :: s) := by
  cases ranges <;> simp only [lossyFrom, hin, if_false]

variable (pending : Bytes)

theorem mem_lossyFrom (h : validFrom ranges s = false) : 0xEF ∈ lossyFrom ranges pending s := by
  induction s generalizing ranges pending with
  | nil =>
    cases ranges with
    | nil => simp [validFrom] at h
    | cons range ranges => simp [lossyFrom, replacement]
  | cons b s ih =>
    match ranges with
    | [] =>
      rw [validFrom] at h
      rw [lossyFrom]
      cases ho : owed b with
      | none => simp [replacement]
      | some ranges =>
        simp only [ho] at h
        cases ranges with
        | nil => exact mem_cons_of_mem _ (ih [] h)
        | cons range ranges => exact ih [b] h
    | (lo, hi) :: ranges =>
      rw [validFrom] at h
      by_cases hin : lo ≤ b ∧ b ≤ hi
      · have hrest : validFrom ranges s = false := by simpa [hin] using h
        cases ranges with
        | nil =>
          rw [lossyFrom, if_pos hin]
          exact mem_append_right _ (mem_cons_of_mem _ (ih [] hrest))
        | cons range ranges =>
          rw [lossyFrom, if_pos hin]
          exact ih _ hrest
      · rw [lossyFrom_of_refused hin]
        exact mem_append_left _ mem_cons_self

theorem mem_lossy (h : valid s = false) : 0xEF ∈ lossy s := mem_lossyFrom [] h

private theorem valid_lossy_start (b : UInt8) (rest : Bytes)
    (ih : ∀ ranges pending, (ranges ≠ [] → ∀ t, valid (pending ++ t) = validFrom ranges t) →
      valid (lossyFrom ranges pending rest) = true) :
    valid (lossyFrom [] [] (b :: rest)) = true := by
  rw [lossyFrom]
  cases ho : owed b with
  | none => exact (valid_append rfl).trans (ih [] [] (by simp))
  | some ranges =>
    have hcn : ∀ t, valid (b :: t) = validFrom ranges t := by
      intro t
      simp [valid, validFrom, ho]
    cases ranges with
    | nil => exact (hcn _).trans (ih [] [] (by simp))
    | cons range ranges => exact ih (range :: ranges) [b] fun _ => hcn

/-- A repaired text is valid. `pending` is the part read of a character that still owes
`ranges`. -/
theorem valid_lossyFrom (hpending : ranges ≠ [] → ∀ t, valid (pending ++ t) = validFrom ranges t) :
    valid (lossyFrom ranges pending s) = true := by
  induction s generalizing ranges pending with
  | nil =>
    cases ranges with
    | nil => rfl
    | cons range ranges => rfl
  | cons b s ih =>
    have hst := valid_lossy_start b s fun ranges pending h => ih pending h
    match ranges with
    | [] => exact hst
    | (lo, hi) :: ranges =>
      have hpend : ∀ t, valid (pending ++ t) = validFrom ((lo, hi) :: ranges) t :=
        hpending (by simp)
      by_cases hin : lo ≤ b ∧ b ≤ hi
      · cases ranges with
        | nil =>
          rw [lossyFrom, if_pos hin, hpend, validFrom, decide_eq_true hin]
          exact ih [] (by simp)
        | cons range ranges =>
          rw [lossyFrom, if_pos hin]
          refine ih (pending ++ [b]) fun _ t => ?_
          rw [append_assoc, singleton_append, hpend, validFrom, decide_eq_true hin, Bool.true_and]
      · rw [lossyFrom_of_refused hin]
        exact (valid_append rfl).trans hst

theorem valid_lossy (s : Bytes) : valid (lossy s) = true := valid_lossyFrom [] (by simp)

theorem lossyFrom_of_validFrom (hpend : ranges = [] → pending = [])
    (h : validFrom ranges s = true) : lossyFrom ranges pending s = pending ++ s := by
  induction s generalizing ranges pending with
  | nil =>
    cases ranges with
    | nil => rw [hpend rfl, lossyFrom, append_nil]
    | cons range ranges => simp [validFrom] at h
  | cons b s ih =>
    match ranges with
    | [] =>
      rw [hpend rfl, lossyFrom]
      rw [validFrom] at h
      cases ho : owed b with
      | none => simp [ho] at h
      | some ranges =>
        simp only [ho] at h
        cases ranges with
        | nil => exact congrArg (b :: ·) (ih [] (fun _ => rfl) h)
        | cons range ranges => exact ih [b] (by simp) h
    | (lo, hi) :: ranges =>
      rw [validFrom, Bool.and_eq_true, decide_eq_true_iff] at h
      cases ranges with
      | nil => rw [lossyFrom, if_pos h.1, ih [] (fun _ => rfl) h.2, nil_append]
      | cons range ranges =>
        rw [lossyFrom, if_pos h.1, ih _ (by simp) h.2, append_assoc, singleton_append]

theorem lossy_of_valid (h : valid s = true) : lossy s = s :=
  lossyFrom_of_validFrom [] (fun _ => rfl) h

def whiteSpace : List Bytes :=
  [[0x09], [0x0A], [0x0B], [0x0C], [0x0D], [0x20], [0xC2, 0x85], [0xC2, 0xA0], [0xE1, 0x9A, 0x80],
    [0xE2, 0x80, 0x80], [0xE2, 0x80, 0x81], [0xE2, 0x80, 0x82], [0xE2, 0x80, 0x83],
    [0xE2, 0x80, 0x84], [0xE2, 0x80, 0x85], [0xE2, 0x80, 0x86], [0xE2, 0x80, 0x87],
    [0xE2, 0x80, 0x88], [0xE2, 0x80, 0x89], [0xE2, 0x80, 0x8A], [0xE2, 0x80, 0xA8],
    [0xE2, 0x80, 0xA9], [0xE2, 0x80, 0xAF], [0xE2, 0x81, 0x9F], [0xE3, 0x80, 0x80]]

/-- A text after at most `turns` turns of a rule that shortens it. -/
def shorten (rule : Bytes → Option Bytes) : (turns : Nat) → Bytes → Bytes
  | 0, s => s
  | turns + 1, s =>
    match rule s with
    | some t => shorten rule turns t
    | none => s

def trim (s : Bytes) : Bytes :=
  let s := shorten (fun s => whiteSpace.findSome? s.dropPrefix?) s.length s
  shorten (fun s => whiteSpace.findSome? s.dropSuffix?) s.length s

example : trim (ascii " a b" ++ [0xC2, 0xA0, 0x0A]) = ascii "a b" := by decide

/-- The words of a text, read in at most `turns` turns, behind the beginning of one. -/
def wordsFrom : (turns : Nat) → (word s : Bytes) → List Bytes
  | 0, word, _ => if word.isEmpty then [] else [word]
  | _ + 1, word, [] => if word.isEmpty then [] else [word]
  | turns + 1, word, b :: rest =>
    match whiteSpace.findSome? (b :: rest).dropPrefix? with
    | some rest => (if word.isEmpty then [] else [word]) ++ wordsFrom turns [] rest
    | none => wordsFrom turns (word ++ [b]) rest

def splitWhitespace (s : Bytes) : List Bytes := wordsFrom s.length [] s

example : splitWhitespace (ascii " a bc" ++ [0xC2, 0xA0, 0x64]) =
    [ascii "a", ascii "bc", ascii "d"] := by
  decide

end Utf8
