import Pingclair.Lib.Utf8

/-!
# The characters of a text

A text is valid exactly when it is the encoding of a list of characters. The first byte of a
character says how many bytes it has; its scalar value is put together from the bits that the
bytes carry.
-/

namespace Utf8

open ByteText List Option

variable {b : UInt8} {s : Bytes} {ranges : List Range}

def encode (cs : List Char) : Bytes := cs.flatMap String.utf8EncodeChar

@[simp] theorem encode_nil : encode [] = [] := rfl

variable (c : Char)

@[simp] theorem encode_cons (cs : List Char) :
    encode (c :: cs) = String.utf8EncodeChar c ++ encode cs := rfl

theorem encode_append (cs ds : List Char) : encode (cs ++ ds) = encode cs ++ encode ds :=
  flatMap_append

/-- Bytes that take the ranges one for one. -/
def Fills (ranges : List Range) (s : Bytes) : Prop :=
  List.Forall₂ (fun range b => range.1 ≤ b ∧ b ≤ range.2) ranges s

/-! ### Bytes and scalar values -/

theorem toNat_ofNat_lt {n : Nat} (hn : n < 256) : (UInt8.ofNat n).toNat = n := by
  exact Nat.mod_eq_of_lt hn

theorem exists_char {n : Nat} (h : n.isValidChar) : ∃ c : Char, c.val.toNat = n :=
  ⟨Char.ofNatAux n h, rfl⟩

theorem eq_ofNat {x : UInt8} {n : Nat} (h : n = x.toNat) : UInt8.ofNat n = x := by
  rw [h, UInt8.ofNat_toNat]

def second (b : UInt8) : Range :=
  (if b = 0xE0 then 0xA0 else if b = 0xF0 then 0x90 else 0x80,
    if b = 0xED then 0x9F else if b = 0xF4 then 0x8F else 0xBF)

/-- What a first byte asks for, by its number. -/
theorem owed_eq : ∀ b : UInt8, owed b =
    if b.toNat < 0x80 then some []
    else if b.toNat < 0xC2 then none
    else if b.toNat < 0xE0 then some [(0x80, 0xBF)]
    else if b.toNat < 0xF0 then some [second b, (0x80, 0xBF)]
    else if b.toNat < 0xF5 then some [second b, (0x80, 0xBF), (0x80, 0xBF)]
    else none :=
  forall_byte (by decide +kernel)

theorem toNat_second : ∀ b : UInt8,
    (b.toNat = 0xE0 ∧ (second b).1.toNat = 0xA0 ∨ b.toNat = 0xF0 ∧ (second b).1.toNat = 0x90 ∨
      b.toNat ≠ 0xE0 ∧ b.toNat ≠ 0xF0 ∧ (second b).1.toNat = 0x80) ∧
    (b.toNat = 0xED ∧ (second b).2.toNat = 0x9F ∨ b.toNat = 0xF4 ∧ (second b).2.toNat = 0x8F ∨
      b.toNat ≠ 0xED ∧ b.toNat ≠ 0xF4 ∧ (second b).2.toNat = 0xBF) :=
  forall_byte (by decide +kernel)

theorem inRange_iff {low high x : UInt8} :
    low ≤ x ∧ x ≤ high ↔ low.toNat ≤ x.toNat ∧ x.toNat ≤ high.toNat := by
  rw [UInt8.le_iff_toNat_le, UInt8.le_iff_toNat_le]

theorem continues_ofNat (n : Nat) :
    (0x80 : UInt8) ≤ UInt8.ofNat (n % 64 + 128) ∧ UInt8.ofNat (n % 64 + 128) ≤ 0xBF := by
  have hlo : (0x80 : UInt8).toNat = 128 := rfl
  have hhigh : (0xBF : UInt8).toNat = 191 := rfl
  rw [inRange_iff, toNat_ofNat_lt (by omega)]
  omega

theorem owed_encode : ∃ b s ranges, String.utf8EncodeChar c = b :: s ∧
    owed b = some ranges ∧ Fills ranges s := by
  have hv : c.val.toNat < 0xD800 ∨ 0xDFFF < c.val.toNat ∧ c.val.toNat < 0x110000 := c.valid
  rw [String.utf8EncodeChar]
  generalize c.val.toNat = v at hv
  split
  · refine ⟨_, _, [], rfl, ?_, .nil⟩
    rw [owed_eq, toNat_ofNat_lt (by omega), if_pos (by omega)]
  · split
    · refine ⟨_, _, [(0x80, 0xBF)], rfl, ?_, .cons (continues_ofNat v) .nil⟩
      rw [owed_eq, toNat_ofNat_lt (by omega), if_neg (by omega), if_neg (by omega),
        if_pos (by omega)]
    · split
      · refine ⟨_, _, [second (UInt8.ofNat (v / 4096 % 16 + 224)), (0x80, 0xBF)], rfl, ?_,
          .cons (inRange_iff.mpr ?_) (.cons (continues_ofNat v) .nil)⟩
        · rw [owed_eq, toNat_ofNat_lt (by omega), if_neg (by omega), if_neg (by omega),
            if_neg (by omega), if_pos (by omega)]
        · have hbounds := toNat_second (UInt8.ofNat (v / 4096 % 16 + 224))
          rw [toNat_ofNat_lt (by omega)] at hbounds ⊢
          omega
      · refine ⟨_, _, [second (UInt8.ofNat (v / 262144 % 8 + 240)), (0x80, 0xBF), (0x80, 0xBF)],
          rfl, ?_, .cons (inRange_iff.mpr ?_)
          (.cons (continues_ofNat (v / 64)) (.cons (continues_ofNat v) .nil))⟩
        · rw [owed_eq, toNat_ofNat_lt (by omega), if_neg (by omega), if_neg (by omega),
            if_neg (by omega), if_neg (by omega), if_pos (by omega)]
        · have hbounds := toNat_second (UInt8.ofNat (v / 262144 % 8 + 240))
          rw [toNat_ofNat_lt (by omega)] at hbounds ⊢
          omega

theorem Fills.exists_cons {range : Range} (h : Fills (range :: ranges) s) :
    ∃ x t, s = x :: t ∧ (range.1.toNat ≤ x.toNat ∧ x.toNat ≤ range.2.toNat) ∧ Fills ranges t := by
  obtain ⟨x, t, hx, ht, rfl⟩ := forall₂_cons_left_iff.mp h
  exact ⟨x, t, rfl, inRange_iff.mp hx, ht⟩

theorem Fills.exists_continues (h : Fills ((0x80, 0xBF) :: ranges) s) :
    ∃ x t, s = x :: t ∧ (0x80 ≤ x.toNat ∧ x.toNat ≤ 0xBF) ∧ Fills ranges t :=
  h.exists_cons

theorem exists_encode (howed : owed b = some ranges) (hs : Fills ranges s) :
    ∃ c, String.utf8EncodeChar c = b :: s := by
  rw [owed_eq] at howed
  split_ifs at howed with hone _ htwo hthree hfour <;> cases howed
  · obtain rfl := forall₂_nil_left_iff.mp hs
    obtain ⟨c, hc⟩ := exists_char (n := b.toNat) (.inl (by omega))
    refine ⟨c, ?_⟩
    rw [String.utf8EncodeChar, hc, if_pos (by omega), UInt8.ofNat_toNat]
  · obtain ⟨y, t, rfl, hy, ht⟩ := hs.exists_continues
    obtain rfl := forall₂_nil_left_iff.mp ht
    obtain ⟨c, hc⟩ := exists_char (n := b.toNat % 32 * 64 + y.toNat % 64) (.inl (by omega))
    refine ⟨c, ?_⟩
    rw [String.utf8EncodeChar, hc, if_neg (by omega), if_pos (by omega),
      eq_ofNat (x := b) (by omega), eq_ofNat (x := y) (by omega)]
  · obtain ⟨y, t, rfl, hy, ht⟩ := hs.exists_cons
    obtain ⟨z, t, rfl, hz, ht⟩ := ht.exists_continues
    obtain rfl := forall₂_nil_left_iff.mp ht
    have hbounds := toNat_second b
    have hy80 : 0x80 ≤ y.toNat ∧ y.toNat ≤ 0xBF := by omega
    have hE0 : b.toNat = 0xE0 → 0xA0 ≤ y.toNat := by omega
    have hED : b.toNat = 0xED → y.toNat ≤ 0x9F := by omega
    obtain ⟨c, hc⟩ := exists_char (n := b.toNat % 16 * 4096 + y.toNat % 64 * 64 + z.toNat % 64)
      (by rw [Nat.isValidChar]; omega)
    refine ⟨c, ?_⟩
    rw [String.utf8EncodeChar, hc, if_neg (by omega), if_neg (by omega), if_pos (by omega),
      eq_ofNat (x := b) (by omega), eq_ofNat (x := y) (by omega), eq_ofNat (x := z) (by omega)]
  · obtain ⟨y, t, rfl, hy, ht⟩ := hs.exists_cons
    obtain ⟨z, t, rfl, hz, ht⟩ := ht.exists_continues
    obtain ⟨w, t, rfl, hw, ht⟩ := ht.exists_continues
    obtain rfl := forall₂_nil_left_iff.mp ht
    have hbounds := toNat_second b
    have hy80 : 0x80 ≤ y.toNat ∧ y.toNat ≤ 0xBF := by omega
    have hF0 : b.toNat = 0xF0 → 0x90 ≤ y.toNat := by omega
    have hF4 : b.toNat = 0xF4 → y.toNat ≤ 0x8F := by omega
    obtain ⟨c, hc⟩ := exists_char (n := b.toNat % 8 * 262144 + y.toNat % 64 * 4096 +
      z.toNat % 64 * 64 + w.toNat % 64) (by rw [Nat.isValidChar]; omega)
    refine ⟨c, ?_⟩
    rw [String.utf8EncodeChar, hc, if_neg (by omega), if_neg (by omega), if_neg (by omega),
      eq_ofNat (x := b) (by omega), eq_ofNat (x := y) (by omega), eq_ofNat (x := z) (by omega),
      eq_ofNat (x := w) (by omega)]

theorem validFrom_fills {t : Bytes} (hs : Fills ranges s) :
    validFrom ranges (s ++ t) = valid t := by
  induction hs with
  | nil => rfl
  | cons hb _ ih =>
    rw [cons_append, validFrom, ih, decide_eq_true hb, Bool.true_and]

theorem fills_of_validFrom (h : validFrom ranges s = true) (hlen : s.length ≤ ranges.length) :
    Fills ranges s := by
  induction ranges generalizing s with
  | nil =>
    obtain rfl : s = [] := length_eq_zero_iff.mp (Nat.le_zero.mp hlen)
    exact List.Forall₂.nil
  | cons range ranges ih =>
    cases s with
    | nil => simp [validFrom] at h
    | cons b s =>
      simp only [validFrom, Bool.and_eq_true, decide_eq_true_eq] at h
      exact List.Forall₂.cons h.1 (ih h.2 (Nat.le_of_succ_le_succ hlen))

theorem valid_encode_append (t : Bytes) : valid (String.utf8EncodeChar c ++ t) = valid t := by
  obtain ⟨b, s, rs, hc, howed, hfls⟩ := owed_encode c
  rw [hc, valid, cons_append, validFrom, howed]
  exact validFrom_fills hfls

def charWidth (first : UInt8) : Nat :=
  if first < 0x80 then 1 else if first < 0xE0 then 2 else if first < 0xF0 then 3 else 4

def scalar : Bytes → Nat
  | [x] => x.toNat
  | [x, y] => x.toNat % 32 * 64 + y.toNat % 64
  | [x, y, z] => x.toNat % 16 * 4096 + y.toNat % 64 * 64 + z.toNat % 64
  | [x, y, z, w] =>
    x.toNat % 8 * 262144 + y.toNat % 64 * 4096 + z.toNat % 64 * 64 + w.toNat % 64
  | _ => 0

def nextChar (s : Bytes) : Option Char :=
  s.head?.map fun first => Char.ofNat (scalar (s.take (charWidth first)))

theorem ofNat_val : Char.ofNat c.val.toNat = c := by
  rw [Char.ofNat, dif_pos c.valid]
  rfl

theorem encode_carries :
    ∃ b s, String.utf8EncodeChar c = b :: s ∧ charWidth b = s.length + 1 ∧
      scalar (b :: s) = c.val.toNat := by
  have hv : c.val.toNat < 0xD800 ∨ 0xDFFF < c.val.toNat ∧ c.val.toNat < 0x110000 := c.valid
  rw [String.utf8EncodeChar]
  have hw (b : UInt8) : charWidth b = if b.toNat < 0x80 then 1 else
      if b.toNat < 0xE0 then 2 else if b.toNat < 0xF0 then 3 else 4 := by
    rfl
  split
  · refine ⟨_, _, rfl, ?_, ?_⟩
    · rw [hw, toNat_ofNat_lt (by omega), if_pos (by omega)]
      rfl
    · rw [scalar, toNat_ofNat_lt (by omega)]
  · split
    · refine ⟨_, _, rfl, ?_, ?_⟩
      · rw [hw, toNat_ofNat_lt (by omega), if_neg (by omega), if_pos (by omega)]
        rfl
      · rw [scalar, toNat_ofNat_lt (by omega), toNat_ofNat_lt (by omega)]
        omega
    · split
      · refine ⟨_, _, rfl, ?_, ?_⟩
        · rw [hw, toNat_ofNat_lt (by omega), if_neg (by omega), if_neg (by omega),
            if_pos (by omega)]
          rfl
        · rw [scalar, toNat_ofNat_lt (by omega), toNat_ofNat_lt (by omega),
            toNat_ofNat_lt (by omega)]
          omega
      · refine ⟨_, _, rfl, ?_, ?_⟩
        · rw [hw, toNat_ofNat_lt (by omega), if_neg (by omega), if_neg (by omega)]
          rfl
        · rw [scalar, toNat_ofNat_lt (by omega), toNat_ofNat_lt (by omega),
            toNat_ofNat_lt (by omega), toNat_ofNat_lt (by omega)]
          omega

theorem nextChar_encode (t : Bytes) : nextChar (String.utf8EncodeChar c ++ t) = some c := by
  obtain ⟨b, s, hc, hw, hscalar⟩ := encode_carries c
  have htk : (b :: s ++ t).take (charWidth b) = b :: s := by
    rw [hw, ← length_cons, take_left]
  rw [hc, nextChar, cons_append, List.head?_cons, map_some, ← cons_append, htk, hscalar, ofNat_val]

def chars (s : Bytes) : List Char :=
  match s with
  | [] => []
  | first :: rest =>
    Char.ofNat (scalar ((first :: rest).take (charWidth first))) ::
      chars (rest.drop (charWidth first - 1))
termination_by s.length
decreasing_by
  rw [length_drop, length_cons]
  omega

theorem chars_encode (cs : List Char) : chars (encode cs) = cs := by
  induction cs with
  | nil => rw [encode_nil, chars]
  | cons c cs ih =>
    obtain ⟨b, s, hc, hw, hscalar⟩ := encode_carries c
    have htk : (b :: (s ++ encode cs)).take (charWidth b) = b :: s := by
      rw [hw, ← length_cons, ← cons_append, take_left]
    have hdr : (s ++ encode cs).drop (charWidth b - 1) = encode cs := by
      rw [hw, Nat.add_sub_cancel, drop_left]
    rw [encode_cons, hc, cons_append, chars, htk, hdr, ih, hscalar, ofNat_val]

def asciiByte (c : Char) : UInt8 := UInt8.ofNat c.val.toNat

theorem encode_ascii {c : Char} (hc : c.val.toNat < 0x80) :
    String.utf8EncodeChar c = [asciiByte c] := by
  rw [String.utf8EncodeChar, if_pos (by omega)]
  rfl

theorem Fills.le_of_mem (h : Fills ranges s) (hrs : ∀ range ∈ ranges, 0x80 ≤ range.1) :
    ∀ b ∈ s, 0x80 ≤ b := by
  induction h with
  | nil => simp
  | cons hb _ ih =>
    rw [forall_mem_cons] at hrs ⊢
    exact ⟨UInt8.le_trans hrs.1 hb.1, ih hrs.2⟩

theorem mem_encodeChar {c a : Char} (ha : a.val.toNat < 0x80) :
    asciiByte a ∈ String.utf8EncodeChar c ↔ c = a := by
  have hb : asciiByte a < 0x80 := by
    rw [UInt8.lt_iff_toNat_lt, asciiByte, toNat_ofNat_lt (by omega)]
    exact ha
  constructor
  · intro h
    obtain ⟨x, t, ranges, hc, howed, hfls⟩ := owed_encode c
    have hrest := hfls.le_of_mem fun range hrg => ((owed_ranges howed).1 range hrg).1
    have hsame : String.utf8EncodeChar c = String.utf8EncodeChar a := by
      rw [encode_ascii ha]
      rw [hc] at h ⊢
      rcases mem_cons.mp h with rfl | hmem
      · rw [owed, if_pos hb, some.injEq] at howed
        rw [← howed] at hfls
        rw [forall₂_nil_left_iff.mp hfls]
      · exact absurd (hrest _ hmem) (UInt8.not_le.mpr hb)
    have hread := nextChar_encode c []
    rw [hsame, nextChar_encode] at hread
    exact (Option.some.inj hread).symm
  · rintro rfl
    rw [encode_ascii ha]
    exact mem_singleton_self _

theorem head?_encode {a : Char} (ha : a.val.toNat < 0x80) (cs : List Char) :
    (encode cs).head? = some (asciiByte a) ↔ cs.head? = some a := by
  cases cs with
  | nil => simp
  | cons c cs =>
    rw [encode_cons, List.head?_cons, some.injEq]
    constructor
    · intro h
      rw [List.head?_append_of_ne_nil _ (String.utf8EncodeChar_ne_nil)] at h
      exact (mem_encodeChar ha).mp (mem_of_head? h)
    · rintro rfl
      rw [encode_ascii ha]
      rfl

theorem idxOf?_encode {a : Char} (ha : a.val.toNat < 0x80) (cs : List Char) :
    (encode cs).idxOf? (asciiByte a) = (cs.idxOf? a).map fun i => (encode (cs.take i)).length := by
  induction cs with
  | nil => rfl
  | cons c cs ih =>
    rw [encode_cons, List.idxOf?_cons]
    by_cases hc : c = a
    · rw [hc, encode_ascii ha, singleton_append, List.idxOf?_cons]
      simp
    · have hnone : (String.utf8EncodeChar c).idxOf? (asciiByte a) = none :=
        List.idxOf?_eq_none_iff.mpr fun hmem => hc ((mem_encodeChar ha).mp hmem)
      have happend : (String.utf8EncodeChar c ++ encode cs).idxOf? (asciiByte a) =
          ((String.utf8EncodeChar c).idxOf? (asciiByte a)).or (((encode cs).idxOf?
            (asciiByte a)).map (· + (String.utf8EncodeChar c).length)) := List.findIdx?_append
      rw [happend, hnone, ih]
      simp [hc, encode_cons, Nat.add_comm, Function.comp_def]

end Utf8
