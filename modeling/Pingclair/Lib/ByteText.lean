import Mathlib.Data.List.DropRight
import Mathlib.Data.List.Infix

/-!
# Byte strings

Text is a list of bytes. No byte of a multi-byte UTF-8 character is ASCII, so splitting, searching
and slicing text at an ASCII delimiter is splitting its bytes. Splitting at every delimiter is
`List.splitOn`; `rooted sep segs` is the text in which each segment is preceded by the delimiter.
-/

namespace ByteText

open List Option

abbrev Bytes := List UInt8

@[match_pattern] abbrev slash : UInt8 := 0x2F
@[match_pattern] abbrev percent : UInt8 := 0x25
@[match_pattern] abbrev question : UInt8 := 0x3F
@[match_pattern] abbrev dot : UInt8 := 0x2E
@[match_pattern] abbrev star : UInt8 := 0x2A

@[simp] theorem slash_ne_dot : slash ≠ dot := by decide

@[simp] theorem slash_ne_star : slash ≠ star := by decide

def ascii (s : String) : Bytes := s.toList.map Char.toUInt8

theorem forall_byte {p : UInt8 → Prop} (h : ∀ i : Fin 256, p (UInt8.ofNat i.val)) (b : UInt8) :
    p b := by
  have hb := h ⟨b.toNat, b.toNat_lt⟩
  rwa [UInt8.ofNat_toNat] at hb

variable {sep b : UInt8} {s t u : Bytes}

def splitOnce (sep : UInt8) : Bytes → Option (Bytes × Bytes)
  | [] => none
  | b :: rest =>
    if b = sep then some ([], rest)
    else (splitOnce sep rest).map fun p => (b :: p.1, p.2)

theorem splitOnce_append (hs : sep ∉ s) : splitOnce sep (s ++ sep :: t) = some (s, t) := by
  induction s with
  | nil => simp [splitOnce]
  | cons b s ih =>
    simp only [mem_cons, not_or] at hs
    simp [splitOnce, Ne.symm hs.1, ih hs.2]

theorem splitOnce_of_not_mem (hs : sep ∉ s) : splitOnce sep s = none := by
  induction s with
  | nil => rfl
  | cons b s ih =>
    simp only [mem_cons, not_or] at hs
    simp [splitOnce, Ne.symm hs.1, ih hs.2]

theorem splitOnce_eq_some (h : splitOnce sep s = some (t, u)) : s = t ++ sep :: u ∧ sep ∉ t := by
  induction s generalizing t with
  | nil => simp [splitOnce] at h
  | cons b s ih =>
    simp only [splitOnce] at h
    split at h
    · next hb =>
      obtain ⟨rfl, rfl⟩ := h
      simp [hb]
    · next hb =>
      obtain ⟨⟨t', u'⟩, hp, heq⟩ := map_eq_some_iff.mp h
      obtain ⟨rfl, rfl⟩ := heq
      obtain ⟨rfl, hn⟩ := ih hp
      exact ⟨rfl, by simp [hn, Ne.symm hb]⟩

theorem splitOnce_eq_none (h : splitOnce sep s = none) : sep ∉ s := by
  intro hmem
  obtain ⟨t, u, rfl, ht⟩ := eq_append_cons_of_mem hmem
  rw [splitOnce_append ht] at h
  exact some_ne_none _ h

/-- The text before and after the first occurrence of a text that is not empty. -/
def splitOnceText (mark : Bytes) : Bytes → Option (Bytes × Bytes)
  | [] => none
  | b :: rest =>
    match (b :: rest).dropPrefix? mark with
    | some after => some ([], after)
    | none => (splitOnceText mark rest).map fun p => (b :: p.1, p.2)

theorem dropPrefix?_eq_some {α : Type*} [BEq α] [LawfulBEq α] {s t u : List α} :
    s.dropPrefix? t = some u ↔ s = t ++ u := by
  rw [List.dropPrefix?_eq_some_iff]
  constructor
  · rintro ⟨t', rfl, ht⟩
    rw [eq_of_beq ht]
  · rintro rfl
    exact ⟨t, rfl, by simp⟩

theorem dropSuffix?_eq_some : s.dropSuffix? t = some u ↔ s = u ++ t := by
  rw [List.dropSuffix?_eq_some_iff]
  constructor
  · rintro ⟨t', rfl, ht⟩
    rw [eq_of_beq ht]
  · rintro rfl
    exact ⟨t, rfl, by simp⟩

def isWhitespace (b : UInt8) : Bool := b == 0x20 || 0x09 ≤ b && b ≤ 0x0D

/-- ASCII whitespace as `u8::is_ascii_whitespace` has it, without the vertical tab. -/
def isAsciiWhitespace (b : UInt8) : Bool :=
  b == 0x20 || b == 0x09 || b == 0x0A || b == 0x0C || b == 0x0D

def trimAsciiStart (s : Bytes) : Bytes := s.dropWhile isAsciiWhitespace

def trimAscii (s : Bytes) : Bytes := (trimAsciiStart s).rdropWhile isAsciiWhitespace

def trim (s : Bytes) : Bytes := (s.dropWhile isWhitespace).rdropWhile isWhitespace

def rfind (sep : UInt8) (s : Bytes) : Option Nat :=
  (s.reverse.idxOf? sep).map fun i => s.length - 1 - i

theorem rfind_of_not_mem (hs : sep ∉ s) : rfind sep s = none := by
  simp [rfind, List.idxOf?_eq_none_iff, hs]

theorem rfind_append (ht : sep ∉ t) : rfind sep (s ++ sep :: t) = some s.length := by
  have hidx : (s ++ sep :: t).reverse.idxOf? sep = some t.length := by
    have hrev : (s ++ sep :: t).reverse = t.reverse ++ sep :: s.reverse := by simp
    rw [hrev, List.idxOf?_eq_some_iff]
    refine ⟨by simp, by simp, ?_⟩
    intro j hj heq
    rw [getElem_append_left (by simpa using hj)] at heq
    exact ht (mem_reverse.mp (heq ▸ getElem_mem _))
  rw [rfind, hidx]
  simp only [map_some, length_append, length_cons]
  congr 1
  omega

/-- The text that puts `sep` in front of every segment. -/
def rooted {α : Type*} (sep : α) (segs : List (List α)) : List α := segs.flatMap (sep :: ·)

@[simp] theorem rooted_nil {α : Type*} {sep : α} : rooted sep [] = [] := rfl

@[simp] theorem rooted_cons {α : Type*} {sep : α} {s : List α} {segs : List (List α)} :
    rooted sep (s :: segs) = sep :: s ++ rooted sep segs := rfl

@[simp] theorem rooted_append {segs segs' : List Bytes} :
    rooted sep (segs ++ segs') = rooted sep segs ++ rooted sep segs' :=
  flatMap_append ..

variable {segs : List Bytes}

theorem not_mem_rooted (hb : b ≠ sep) : b ∉ rooted sep segs ↔ ∀ seg ∈ segs, b ∉ seg := by
  simp [rooted, hb]

theorem splitOn_cons_self : (sep :: s).splitOn sep = [] :: s.splitOn sep := by
  rw [splitOn_cons_eq_if_modifyHead]
  simp

theorem splitOn_append_rooted (hs : sep ∉ s)
    (h : ∀ seg ∈ segs, sep ∉ seg) : (s ++ rooted sep segs).splitOn sep = s :: segs := by
  induction segs generalizing s with
  | nil => simp [splitOn_eq_singleton hs]
  | cons seg segs ih =>
    rw [rooted_cons, cons_append, splitOn_append_cons_self_of_not_mem hs,
      ih (h seg mem_cons_self) (forall_mem_cons.mp h).2]

theorem splitOn_rooted (h : ∀ seg ∈ segs, sep ∉ seg) : (rooted sep segs).splitOn sep = [] :: segs :=
  splitOn_append_rooted (s := []) (by simp) h

theorem rooted_eq_cons_intercalate {α : Type*} {sep : α} {segs : List (List α)} (h : segs ≠ []) :
    rooted sep segs = sep :: List.intercalate [sep] segs := by
  induction segs with
  | nil => exact absurd rfl h
  | cons seg segs ih =>
    cases segs with
    | nil => simp
    | cons seg' segs =>
      rw [rooted_cons, ih (by simp)]
      simp

section

variable {α : Type*} [BEq α] [LawfulBEq α] {sep : α} {s t : List α}

theorem not_mem_of_mem_splitOn (h : t ∈ s.splitOn sep) : sep ∉ t := by
  induction s generalizing t with
  | nil =>
    simp only [splitOn_nil, mem_singleton] at h
    simp [h]
  | cons b s ih =>
    rw [splitOn_cons_eq_if_modifyHead] at h
    split at h
    · rcases mem_cons.mp h with rfl | h
      · simp
      · exact ih h
    · next hb =>
      obtain ⟨head, tail, hsp⟩ := exists_cons_of_ne_nil (splitOn_ne_nil sep s)
      rw [hsp] at h
      rcases mem_cons.mp h with rfl | h
      · have hhead := ih (t := head) (by simp [hsp])
        simp only [mem_cons, not_or]
        exact ⟨by rintro rfl; simp at hb, hhead⟩
      · exact ih (by simp [hsp, h])

theorem exists_splitOn_eq (sep : α) (s : List α) : ∃ seg segs, s.splitOn sep = seg :: segs ∧
    s = seg ++ rooted sep segs ∧ sep ∉ seg ∧ ∀ x ∈ segs, sep ∉ x := by
  obtain ⟨seg, segs, hsp⟩ := exists_cons_of_ne_nil (splitOn_ne_nil sep s)
  refine ⟨seg, segs, hsp, ?_, ?_, ?_⟩
  · rw [← @List.intercalate_splitOn _ s _ _ sep, hsp]
    cases segs with
    | nil => simp
    | cons seg' segs =>
      rw [rooted_eq_cons_intercalate (by simp)]
      simp
  · exact not_mem_of_mem_splitOn (s := s) (by simp [hsp])
  · intro x hx
    exact not_mem_of_mem_splitOn (s := s) (by simp [hsp, hx])

end

theorem rooted_tail_splitOn (h : s.head? = some sep) : rooted sep (s.splitOn sep).tail = s := by
  cases s with
  | nil => simp at h
  | cons b s =>
    obtain rfl : b = sep := by simpa using h
    rw [splitOn_cons_self, tail_cons,
      rooted_eq_cons_intercalate (splitOn_ne_nil b s), intercalate_splitOn]

theorem exists_append_rooted (sep : UInt8) (s : Bytes) : ∃ seg segs,
    s = seg ++ rooted sep segs ∧ sep ∉ seg ∧ ∀ x ∈ segs, sep ∉ x := by
  obtain ⟨seg, segs, -, h⟩ := exists_splitOn_eq sep s
  exact ⟨seg, segs, h⟩

theorem mem_of_mem_splitOn (h : t ∈ s.splitOn sep) (hb : b ∈ t) : b ∈ s := by
  obtain ⟨seg, ss, rfl, hsg, hss⟩ := exists_append_rooted sep s
  rw [splitOn_append_rooted hsg hss, mem_cons] at h
  rcases h with rfl | h
  · exact mem_append_left _ hb
  · exact mem_append_right _ (mem_flatMap.mpr ⟨t, h, mem_cons_of_mem _ hb⟩)

/-- A text without the delimiter, followed by it, stands at the front of a segmented
text exactly when it is the first of several segments. -/
theorem prefix_append_rooted_iff (hs : sep ∉ s) (ht : sep ∉ t) :
    t ++ [sep] <+: s ++ rooted sep segs ↔ s = t ∧ segs ≠ [] := by
  constructor
  · rintro ⟨u, hu⟩
    rw [append_assoc, singleton_append] at hu
    have hlf := splitOnce_append (t := u) ht
    cases segs with
    | nil =>
      rw [rooted_nil, append_nil] at hu
      rw [hu, splitOnce_of_not_mem hs] at hlf
      simp at hlf
    | cons seg segs =>
      rw [hu, rooted_cons, cons_append, splitOnce_append hs] at hlf
      exact ⟨by simpa using congrArg (Option.map Prod.fst) hlf, by simp⟩
  · rintro ⟨rfl, hne⟩
    obtain ⟨seg, segs, rfl⟩ := exists_cons_of_ne_nil hne
    exact ⟨seg ++ rooted sep segs, by simp⟩

theorem idxOf?_append_rooted (hs : sep ∉ s) :
    (s ++ rooted sep segs).idxOf? sep = if segs = [] then none else some s.length := by
  cases segs with
  | nil => simpa [List.idxOf?_eq_none_iff] using hs
  | cons seg segs =>
    rw [if_neg (by simp), List.idxOf?_eq_some_iff]
    refine ⟨by simp, by simp, ?_⟩
    intro j hj heq
    rw [getElem_append_left hj] at heq
    exact hs (heq ▸ getElem_mem _)

theorem dropPrefix?_append_rooted (hs : sep ∉ s) (ht : sep ∉ t) :
    (s ++ rooted sep segs).dropPrefix? (t ++ [sep]) =
      if s = t then segs.head?.map (· ++ rooted sep segs.tail) else none := by
  cases hdr : (s ++ rooted sep segs).dropPrefix? (t ++ [sep]) with
  | none =>
    split
    · next heq =>
      subst heq
      cases segs with
      | nil => rfl
      | cons seg segs =>
        have : (s ++ rooted sep (seg :: segs)).dropPrefix? (s ++ [sep]) =
            some (seg ++ rooted sep segs) := dropPrefix?_eq_some.mpr (by simp)
        rw [this] at hdr
        simp at hdr
    · rfl
  | some u =>
    rw [dropPrefix?_eq_some] at hdr
    obtain ⟨rfl, hne⟩ := (prefix_append_rooted_iff hs ht).mp ⟨u, hdr.symm⟩
    obtain ⟨seg, segs, rfl⟩ := exists_cons_of_ne_nil hne
    simpa using hdr.symm

theorem append_rooted_eq_iff (ht : sep ∉ t) : s ++ rooted sep segs = t ↔ s = t ∧ segs = [] := by
  constructor
  · intro h
    cases segs with
    | nil => exact ⟨by simpa using h, rfl⟩
    | cons seg segs =>
      refine absurd ?_ ht
      rw [← h]
      simp
  · rintro ⟨rfl, rfl⟩
    simp

end ByteText
