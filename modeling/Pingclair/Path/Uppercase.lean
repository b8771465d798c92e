import Mathlib.Tactic.Ring
import Pingclair.Lib.AsciiCase
import Pingclair.Lib.Utf8

/-!
# Looking for an uppercase letter eight bytes at a time

`hasAsciiUppercase` reads words of eight bytes, the first byte lowest. Adding `0x3F` to a byte below
`0x80` sets its top bit from `A` on, adding `0x25` from the byte behind `Z` on. A byte of `0xC1` or
more carries into the next one, which in UTF-8 is masked out and carries no further.
-/

namespace Pingclair

open ByteText AsciiCase

def ones : UInt64 := 0x0101010101010101

def high : UInt64 := ones * 0x80

def littleEndian : Bytes → Nat
  | [] => 0
  | b :: bs => b.toNat + 256 * littleEndian bs

def wordHasUppercase (word : UInt64) : Bool :=
  let atLeastA := word + ones * 0x3F
  let aboveZ := word + ones * 0x25
  (atLeastA &&& ~~~aboveZ &&& ~~~word &&& high) != 0

def hasAsciiUppercase (text : Bytes) : Bool :=
  if 8 ≤ text.length then
    if wordHasUppercase (.ofNat (littleEndian (text.take 8))) then true
    else hasAsciiUppercase (text.drop 8)
  else text.any isUpper
termination_by text.length
decreasing_by
  rw [List.length_drop]
  omega

def lane (n i : Nat) : Nat := n / 256 ^ i % 256

def onesNat : Nat → Nat
  | 0 => 0
  | n + 1 => 1 + 256 * onesNat n

theorem lane_zero (n : Nat) : lane n 0 = n % 256 := by
  simp [lane]

theorem lane_succ (n i : Nat) : lane n (i + 1) = lane (n / 256) i := by
  rw [lane, lane, Nat.pow_succ', Nat.div_div_eq_div_mul]

theorem testBit_top (n i : Nat) : n.testBit (8 * i + 7) = decide (128 ≤ lane n i) := by
  have hpow : 2 ^ (8 * i + 7) = 256 ^ i * 128 := by
    rw [Nat.pow_add, Nat.pow_mul]
  rw [Nat.testBit_eq_decide_div_mod_eq, hpow, ← Nat.div_div_eq_div_mul, lane]
  congr 1
  apply propext
  omega

/-- The sum of the bytes from here on, `c` added to each, and what is carried in. -/
def laneSum (bs : Bytes) (c carry : Nat) : Nat := littleEndian bs + c * onesNat bs.length + carry

theorem laneSum_cons (b : UInt8) (bs : Bytes) (c carry : Nat) :
    laneSum (b :: bs) c carry % 256 = (b.toNat + c + carry) % 256 ∧
      laneSum (b :: bs) c carry / 256 = laneSum bs c ((b.toNat + c + carry) / 256) := by
  have hsum : laneSum (b :: bs) c carry =
      b.toNat + c + carry + 256 * (littleEndian bs + c * onesNat bs.length) := by
    simp only [laneSum, littleEndian, onesNat, List.length_cons]
    ring
  rw [hsum, laneSum]
  omega

/-- The bytes whose top bit the word test finds are the uppercase letters: a byte that is
not masked out has nothing carried into it. -/
theorem exists_lane_iff {bs : Bytes} (hchn : bs.IsChain Utf8.Follows) {k₁ k₂ : Nat} (hk₁ : k₁ ≤ 1)
    (hk₂ : k₂ ≤ 1) (hhd : ∀ b ∈ bs.head?, b < 0x80 → k₁ = 0 ∧ k₂ = 0) :
    (∃ i < bs.length, 128 ≤ lane (laneSum bs 0x3F k₁) i ∧ lane (laneSum bs 0x25 k₂) i < 128 ∧
      lane (littleEndian bs) i < 128) ↔ bs.any isUpper = true := by
  induction bs generalizing k₁ k₂ with
  | nil => simp
  | cons b bs ih =>
    have hb := b.toNat_lt
    obtain ⟨hnx, hchn⟩ := List.isChain_cons.mp hchn
    obtain ⟨hmod₁, hdiv₁⟩ := laneSum_cons b bs 0x3F k₁
    obtain ⟨hmod₂, hdiv₂⟩ := laneSum_cons b bs 0x25 k₂
    have hmod : littleEndian (b :: bs) % 256 = b.toNat := by
      rw [littleEndian]
      omega
    have hdiv : littleEndian (b :: bs) / 256 = littleEndian bs := by
      rw [littleEndian]
      omega
    -- only a byte of `0xC0` or more carries, and it is not followed by an ASCII byte
    have hcarry : ∀ c ∈ bs.head?, c < 0x80 →
        (b.toNat + 0x3F + k₁) / 256 = 0 ∧ (b.toNat + 0x25 + k₂) / 256 = 0 := by
      intro c hc hascii
      have hlo : ¬0xC0 ≤ b := fun hlead => by
        have := (hnx c hc hlead).1
        grind
      rw [UInt8.le_iff_toNat_le] at hlo
      simp only [UInt8.reduceToNat] at hlo
      omega
    have hf : (128 ≤ (b.toNat + 0x3F + k₁) % 256 ∧ (b.toNat + 0x25 + k₂) % 256 < 128 ∧
        b.toNat < 128) ↔ isUpper b = true := by
      have hascii := hhd b (by simp)
      simp only [isUpper, Bool.and_eq_true, decide_eq_true_eq, UInt8.le_iff_toNat_le,
        UInt8.lt_iff_toNat_lt, UInt8.reduceToNat] at hascii ⊢
      omega
    have htl := ih hchn (by omega) (by omega) hcarry
    rw [List.length_cons, Nat.exists_lt_succ_left]
    simp only [lane_zero, lane_succ, hmod₁, hmod₂, hmod, hdiv₁, hdiv₂, hdiv, hf, htl,
      List.any_cons, Bool.or_eq_true]

theorem littleEndian_lt (bs : Bytes) : littleEndian bs < 256 ^ bs.length := by
  induction bs with
  | nil => simp [littleEndian]
  | cons b bs ih =>
    have hb := b.toNat_lt
    rw [littleEndian, List.length_cons]
    omega

theorem lane_mod {i : Nat} (hi : i < 8) (n : Nat) : lane (n % 2 ^ 64) i = lane n i := by
  have hpow : 2 ^ 64 = 256 ^ i * 256 * 256 ^ (7 - i) := by
    rw [Nat.mul_assoc, ← Nat.pow_succ', ← Nat.pow_add, show i + (7 - i + 1) = 8 by omega]
    rfl
  rw [lane, lane, hpow, Nat.mul_assoc, Nat.mod_mul_right_div_self, Nat.mod_mul_right_mod]

theorem ne_zero_iff_testBit (x : UInt64) : x ≠ 0 ↔ ∃ j < 64, x.toNat.testBit j = true := by
  constructor
  · intro h
    by_contra hno
    apply h
    apply UInt64.toNat_inj.mp
    apply Nat.eq_of_testBit_eq
    intro j
    by_cases hj : j < 64
    · have hbit : x.toNat.testBit j = false := by
        by_contra hb
        exact hno ⟨j, hj, by simpa using hb⟩
      simp [hbit]
    · have hlt : x.toNat < 2 ^ j :=
        Nat.lt_of_lt_of_le x.toNat_lt (Nat.pow_le_pow_right (by decide) (by omega))
      simp [Nat.testBit_lt_two_pow hlt]
  · rintro ⟨j, -, hj⟩ rfl
    simp at hj

theorem testBit_high : ∀ j < 64, high.toNat.testBit j = decide (j % 8 = 7) := by decide

theorem testBit_mask (a z w : UInt64) {j : Nat} (hj : j < 64) :
    (a &&& ~~~z &&& ~~~w &&& high).toNat.testBit j =
      (a.toNat.testBit j && !z.toNat.testBit j && !w.toNat.testBit j && decide (j % 8 = 7)) := by
  have hcompl : ∀ x : UInt64, (~~~x).toNat.testBit j = !x.toNat.testBit j := by
    intro x
    have hn : (~~~x.toBitVec).getLsbD j = (decide (j < 64) && !x.toBitVec.getLsbD j) :=
      BitVec.getLsbD_not
    rw [decide_eq_true hj] at hn
    exact hn
  simp only [UInt64.toNat_and, Nat.testBit_and, hcompl, testBit_high j hj]

theorem wordHasUppercase_iff (word : UInt64) :
    wordHasUppercase word = true ↔ ∃ i < 8, 128 ≤ lane (word.toNat + 0x3F * onesNat 8) i ∧
      lane (word.toNat + 0x25 * onesNat 8) i < 128 ∧ lane word.toNat i < 128 := by
  have had : ∀ c : UInt64, ∀ i < 8,
      lane (word + ones * c).toNat i = lane (word.toNat + (ones * c).toNat) i := by
    intro c i hi
    rw [UInt64.toNat_add, lane_mod hi]
  rw [wordHasUppercase]
  simp only [bne_iff_ne, ne_zero_iff_testBit]
  constructor
  · rintro ⟨j, hj, hbit⟩
    rw [testBit_mask _ _ _ hj] at hbit
    simp only [Bool.and_eq_true, decide_eq_true_eq] at hbit
    obtain ⟨i, rfl⟩ : ∃ i, j = 8 * i + 7 := ⟨j / 8, by omega⟩
    have hi : i < 8 := by omega
    simp only [testBit_top, had _ i hi, decide_eq_true_eq, Bool.not_eq_true',
      decide_eq_false_iff_not, Nat.not_le] at hbit
    exact ⟨i, hi, hbit.1.1.1, hbit.1.1.2, hbit.1.2⟩
  · rintro ⟨i, hi, h₁, h₂, h₃⟩
    refine ⟨8 * i + 7, by omega, ?_⟩
    rw [testBit_mask _ _ _ (by omega)]
    simp only [testBit_top, had _ i hi, Bool.and_eq_true, decide_eq_true_eq, Bool.not_eq_true',
      decide_eq_false_iff_not, Nat.not_le]
    exact ⟨⟨⟨h₁, h₂⟩, h₃⟩, by omega⟩

/-- The word test finds the uppercase letters among eight bytes of valid text. -/
theorem wordHasUppercase_littleEndian {bs : Bytes} (hlen : bs.length = 8)
    (hchn : bs.IsChain Utf8.Follows) :
    wordHasUppercase (.ofNat (littleEndian bs)) = bs.any isUpper := by
  have hword : (UInt64.ofNat (littleEndian bs)).toNat = littleEndian bs := by
    have := littleEndian_lt bs
    rw [hlen] at this
    exact UInt64.toNat_ofNat_of_lt' this
  rw [Bool.eq_iff_iff, wordHasUppercase_iff, hword,
    ← exists_lane_iff hchn (Nat.zero_le 1) (Nat.zero_le 1) (by simp), hlen]
  simp [laneSum, hlen]

theorem hasAsciiUppercase_of_isChain {text : Bytes} (h : text.IsChain Utf8.Follows) :
    hasAsciiUppercase text = text.any isUpper := by
  have hword : ∀ text : Bytes, 8 ≤ text.length → text.IsChain Utf8.Follows →
      text.any isUpper = (wordHasUppercase (.ofNat (littleEndian (text.take 8))) ||
        (text.drop 8).any isUpper) := by
    intro text hlen hchn
    rw [wordHasUppercase_littleEndian (List.length_take_of_le hlen) (hchn.take 8),
      ← List.any_append, List.take_append_drop]
  induction text using hasAsciiUppercase.induct with
  | case1 text hlen hfd =>
    rw [hasAsciiUppercase, if_pos hlen, if_pos hfd, hword text hlen h, hfd, Bool.true_or]
  | case2 text hlen hnone ih =>
    rw [hasAsciiUppercase, if_pos hlen, if_neg hnone, ih (h.drop 8), hword text hlen h,
      Bool.eq_false_iff.mpr hnone, Bool.false_or]
  | case3 text hlen => rw [hasAsciiUppercase, if_neg hlen]

/-- On valid text the words give the same answer as the bytes. -/
theorem hasAsciiUppercase_eq (text : Utf8.Str) :
    hasAsciiUppercase text.bytes = text.bytes.any isUpper :=
  hasAsciiUppercase_of_isChain (Utf8.isChain_valid text.isValid)

/-- On valid text there is an uppercase letter exactly when the words say so. -/
theorem hasAsciiUppercase_iff (text : Utf8.Str) :
    hasAsciiUppercase text.bytes = true ↔ ∃ b ∈ text.bytes, 0x41 ≤ b ∧ b ≤ 0x5A := by
  rw [hasAsciiUppercase_eq, List.any_eq_true]
  simp only [isUpper, Bool.and_eq_true, decide_eq_true_eq]

end Pingclair
