import Pingclair.Path.Percent

/-!
# Query parameters

A placeholder for a query parameter has the values of all pairs with that name. An escape is read by
a general integer parser, which takes a sign for the first of two digits.
-/

namespace Pingclair.QueryParameters

open ByteText Percent List

abbrev ampersand : UInt8 := 0x26
abbrev equals : UInt8 := 0x3D
abbrev plus : UInt8 := 0x2B
abbrev space : UInt8 := 0x20
abbrev comma : UInt8 := 0x2C

/-- `u8::from_str_radix` on two characters: a plus sign may stand in front. -/
def fromStrRadix (x y : UInt8) : Option UInt8 := if x = plus then hexDigit y else hexPair x y

/-- The bytes of a component, with the byte that the two characters of an escape stand for. -/
def decodeWith (value : UInt8 → UInt8 → Option UInt8) : Bytes → Option Bytes
  | [] => some []
  | b :: rest =>
    if b = plus then (decodeWith value rest).map (space :: ·)
    else if b = percent then
      match rest with
      | x :: y :: rest => (value x y).bind fun v => (decodeWith value rest).map (v :: ·)
      | _ => none
    else (decodeWith value rest).map (b :: ·)

def decodeQueryComponent (value : UInt8 → UInt8 → Option UInt8) (raw : Bytes) : Option Bytes :=
  (decodeWith value raw).filter Utf8.valid

def splitPair (pair : Bytes) : Bytes × Bytes := (splitOnce equals pair).getD (pair, [])

def pairValue (value : UInt8 → UInt8 → Option UInt8) (wanted pair : Bytes) : Option Bytes :=
  if decodeQueryComponent value (splitPair pair).1 = some wanted then
    decodeQueryComponent value (splitPair pair).2
  else none

def parameterWith (value : UInt8 → UInt8 → Option UInt8) (query wanted : Bytes) : Bytes :=
  [comma].intercalate ((query.splitOn ampersand).filterMap (pairValue value wanted))

def queryParameter : Bytes → Bytes → Bytes := parameterWith fromStrRadix

def exactParameter : Bytes → Bytes → Bytes := parameterWith hexPair

def Signed (raw : Bytes) : Prop := [percent, plus] <:+: raw

/-- The ways to write a text in a query. -/
inductive Writes : Bytes → Bytes → Prop
  | nil : Writes [] []
  | plain {b : UInt8} {raw text : Bytes} : b ∉ [ampersand, equals, plus, percent] →
    Writes raw text → Writes (b :: raw) (b :: text)
  | space {raw text : Bytes} : Writes raw text → Writes (plus :: raw) (space :: text)
  | escape {x y b : UInt8} {raw text : Bytes} : hexPair x y = some b →
    Writes raw text → Writes (percent :: x :: y :: raw) (b :: text)

structure Component where
  text : Bytes
  raw : Bytes
  utf8 : Utf8.valid text = true
  writes : Writes raw text

def encode (pairs : List (Component × Component)) : Bytes :=
  [ampersand].intercalate (pairs.map fun p => p.1.raw ++ equals :: p.2.raw)

instance (raw : Bytes) : Decidable (Signed raw) := inferInstanceAs (Decidable (_ <:+: raw))

theorem signed_cons {b : UInt8} (hb : b ≠ percent) (raw : Bytes) :
    Signed (b :: raw) ↔ Signed raw := by
  rw [Signed, infix_cons_iff, cons_prefix_cons]
  exact or_iff_right fun h => hb h.1.symm

theorem ne_of_hexPair {x y v c : UInt8} (h : hexPair x y = some v) (hc : hexDigit c = none) :
    x ≠ c ∧ y ≠ c := by
  refine ⟨?_, ?_⟩
  · rintro rfl
    simp [hexPair_of_left hc] at h
  · rintro rfl
    simp [hexPair_of_right hc] at h

section

variable (value : UInt8 → UInt8 → Option UInt8) (rest : Bytes)

theorem decodeWith_plus :
    decodeWith value (plus :: rest) = (decodeWith value rest).map (space :: ·) := by
  rw [decodeWith.eq_def]
  rfl

theorem decodeWith_percent (x y : UInt8) : decodeWith value (percent :: x :: y :: rest) =
    (value x y).bind fun v => (decodeWith value rest).map (v :: ·) := by
  rw [decodeWith.eq_def]
  rfl

variable {b : UInt8} {rest : Bytes}

theorem decodeWith_ne (hp : b ≠ plus) (hb : b ≠ percent) :
    decodeWith value (b :: rest) = (decodeWith value rest).map (b :: ·) := by
  rw [decodeWith.eq_def]
  simp [if_neg hp, if_neg hb]

theorem decodeWith_short (hr : ∀ x y t, rest ≠ x :: y :: t) :
    decodeWith value (percent :: rest) = none := by
  match rest, hr with
  | [], _ | [_], _ => rfl
  | x :: y :: t, hr => exact absurd rfl (hr x y t)

end

/-- Both readings agree about a component without signs, and one with a sign is refused. -/
theorem decodeWith_hexPair (raw : Bytes) :
    decodeWith hexPair raw = if Signed raw then none else decodeWith fromStrRadix raw := by
  fun_induction decodeWith hexPair raw with
  | case1 => rw [decodeWith, if_neg (by decide)]
  | case2 rest ih =>
    rw [decodeWith_plus, ih, if_congr (signed_cons (by decide) rest) rfl rfl]
    split <;> rfl
  | case3 x y rest hp ih =>
    rw [decodeWith_percent]
    cases hv : hexPair x y with
    | none =>
      by_cases hx : x = plus
      · rw [if_pos ⟨[], y :: rest, by simp [hx]⟩]
        rfl
      · rw [fromStrRadix, if_neg hx, hv]
        exact (ite_self none).symm
    | some v =>
      obtain ⟨hx, hy⟩ := ne_of_hexPair hv (show hexDigit percent = none by decide)
      obtain ⟨hxp, -⟩ := ne_of_hexPair hv (show hexDigit plus = none by decide)
      have hs : Signed (percent :: x :: y :: rest) ↔ Signed rest := by
        rw [← signed_cons hy rest, ← signed_cons hx (y :: rest), Signed, infix_cons_iff,
          cons_prefix_cons, cons_prefix_cons]
        exact or_iff_right fun h => hxp h.2.1.symm
      rw [fromStrRadix, if_neg hxp, hv, if_congr hs rfl rfl, ih]
      split <;> rfl
  | case4 rest hr hp => rw [decodeWith_short _ hr, ite_self]
  | case5 b rest hp hb ih =>
    rw [decodeWith_ne _ hp hb, ih, if_congr (signed_cons hb rest) rfl rfl]
    split <;> rfl

/-- A pair with a signed escape has no value. -/
theorem pairValue_hexPair (wanted pair : Bytes) : pairValue hexPair wanted pair =
    if Signed (splitPair pair).1 ∨ Signed (splitPair pair).2 then none
    else pairValue fromStrRadix wanted pair := by
  simp only [pairValue, decodeQueryComponent, decodeWith_hexPair]
  split_ifs <;> simp_all

theorem intercalate_eq_nil {vs : List Bytes} :
    [comma].intercalate vs = [] ↔ vs = [] ∨ vs = [[]] := by
  match vs with
  | [] | [_] | _ :: _ :: _ => simp

section

variable {f g : Bytes → Option Bytes} (hle : ∀ a, g a = none ∨ g a = f a) (pairs : List Bytes)
include hle

theorem length_rooted_le : (rooted comma (pairs.filterMap g)).length ≤
      (rooted comma (pairs.filterMap f)).length ∧
    ((rooted comma (pairs.filterMap f)).length = (rooted comma (pairs.filterMap g)).length →
      ∀ a ∈ pairs, g a = f a) := by
  induction pairs with
  | nil => simp
  | cons a pairs ih =>
    obtain hg | hg := hle a
    · cases hf : f a with
      | none => simpa [hf, hg] using ih
      | some v =>
        simp only [filterMap_cons_none hg, filterMap_cons_some hf, rooted_cons, length_append,
          length_cons]
        exact ⟨by omega, fun h => by omega⟩
    · cases hf : f a with
      | none => simpa [hf, hg] using ih
      | some v => simpa [hf, hg] using ih

/-- Fewer values make another text, unless all that is lost is one empty value. -/
theorem intercalate_filterMap_eq_iff :
    [comma].intercalate (pairs.filterMap f) = [comma].intercalate (pairs.filterMap g) ↔
      (∀ a ∈ pairs, g a = f a) ∨ pairs.filterMap f = [[]] := by
  obtain ⟨hl, he⟩ := length_rooted_le hle pairs
  constructor
  · intro h
    by_cases hf : pairs.filterMap f = []
    · refine .inl (he (hl.antisymm' ?_))
      simp [hf]
    by_cases hg : pairs.filterMap g = []
    · rw [hg] at h
      exact .inr ((intercalate_eq_nil.mp h).resolve_left hf)
    · exact .inl (he (by rw [rooted_eq_cons_intercalate hf, rooted_eq_cons_intercalate hg, h]))
  · rintro (h | h)
    · rw [filterMap_congr fun a ha => (h a ha).symm]
    · rw [h] at hl ⊢
      by_cases hg : pairs.filterMap g = []
      · rw [hg]
        rfl
      · rw [rooted_eq_cons_intercalate hg] at hl
        exact (length_eq_zero_iff.mp (Nat.le_zero.mp (Nat.le_of_succ_le_succ hl))).symm

end

theorem Writes.decodeWith_eq {raw text : Bytes} (h : Writes raw text) :
    decodeWith fromStrRadix raw = some text := by
  induction h with
  | nil => rfl
  | plain hb _ ih =>
    simp only [mem_cons, not_or] at hb
    rw [decodeWith_ne _ hb.2.2.1 hb.2.2.2.1, ih]
    rfl
  | space _ ih =>
    rw [decodeWith_plus, ih]
    rfl
  | escape hv _ ih =>
    have hx := (ne_of_hexPair hv (show hexDigit plus = none by decide)).1
    rw [decodeWith_percent, fromStrRadix, if_neg hx, hv, ih]
    rfl

theorem Writes.not_mem {raw text : Bytes} (h : Writes raw text) {c : UInt8}
    (hc : c ∈ [ampersand, equals]) : c ∉ raw := by
  have hd : hexDigit c = none ∧ c ≠ plus ∧ c ≠ percent := by
    obtain rfl | rfl := by simpa using hc
    all_goals decide
  induction h with
  | nil => simp
  | plain hb _ ih =>
    refine mem_cons.not.mpr (not_or.mpr ⟨?_, ih⟩)
    rintro rfl
    simp_all
  | space _ ih => exact mem_cons.not.mpr (not_or.mpr ⟨hd.2.1, ih⟩)
  | escape hv _ ih =>
    obtain ⟨hx, hy⟩ := ne_of_hexPair hv hd.1
    simp [hd.2.2, hx.symm, hy.symm, ih]

theorem exists_writes (text : Bytes) : ∃ raw, Writes raw text := by
  induction text with
  | nil => exact ⟨[], .nil⟩
  | cons b text ih =>
    obtain ⟨raw, h⟩ := ih
    have hb : ∀ b : UInt8, hexPair (if b >>> 4 < 10 then (b >>> 4) + 0x30 else (b >>> 4) + 0x37)
        (if b &&& 15 < 10 then (b &&& 15) + 0x30 else (b &&& 15) + 0x37) = some b :=
      forall_byte (by decide +kernel)
    exact ⟨_, .escape (hb b) h⟩

theorem Component.decode_raw (c : Component) :
    decodeQueryComponent fromStrRadix c.raw = some c.text := by
  rw [decodeQueryComponent, c.writes.decodeWith_eq]
  exact Option.filter_some_pos c.utf8

theorem Component.pairValue_raw (n v : Component) (wanted : Bytes) :
    pairValue fromStrRadix wanted (n.raw ++ equals :: v.raw) =
      if n.text = wanted then some v.text else none := by
  have hs := splitOnce_append (t := v.raw) (n.writes.not_mem (c := equals) (by simp))
  simp [pairValue, splitPair, hs, decode_raw]

theorem queryParameter_encode (pairs : List (Component × Component)) (wanted : Bytes) :
    queryParameter (encode pairs) wanted = [comma].intercalate
      (pairs.filterMap fun p => if p.1.text = wanted then some p.2.text else none) := by
  cases pairs with
  | nil =>
    refine intercalate_eq_nil.mpr ?_
    by_cases hw : wanted = []
    · subst hw
      exact .inr rfl
    · left
      have hd : decodeQueryComponent fromStrRadix [] = some [] := rfl
      simp [encode, pairValue, splitPair, splitOnce, hd, Ne.symm hw]
  | cons p pairs =>
    rw [queryParameter, parameterWith, encode, splitOn_intercalate, filterMap_map]
    · simp [Component.pairValue_raw]
    · intro raw hr
      obtain ⟨q, -, rfl⟩ := mem_map.mp hr
      have hn := q.1.writes.not_mem (c := ampersand) (by simp)
      have hv := q.2.writes.not_mem (c := ampersand) (by simp)
      simp [hn, hv, show ampersand ≠ equals by decide]
    · simp

/-- A parameter is read as documented exactly if no pair with a value has a signed escape, or just
one pair has a value, and an empty one. What is encoded is always read back. -/
theorem queryParameter_eq_iff (query wanted : Bytes) :
    (queryParameter query wanted = exactParameter query wanted ↔
      (∀ pair ∈ query.splitOn ampersand, (pairValue fromStrRadix wanted pair).isSome →
        ¬ Signed (splitPair pair).1 ∧ ¬ Signed (splitPair pair).2) ∨
      (query.splitOn ampersand).filterMap (pairValue fromStrRadix wanted) = [[]]) ∧
    (∀ text, ∃ raw, Writes raw text) ∧
    ∀ pairs, queryParameter (encode pairs) wanted =
      [comma].intercalate
        (pairs.filterMap fun p => if p.1.text = wanted then some p.2.text else none) := by
  refine ⟨?_, exists_writes, fun pairs => queryParameter_encode pairs wanted⟩
  rw [queryParameter, exactParameter, parameterWith, parameterWith, intercalate_filterMap_eq_iff]
  · refine or_congr_left (forall₂_congr fun pair _ => ?_)
    rw [pairValue_hexPair]
    cases hv : pairValue fromStrRadix wanted pair with
    | none => simp
    | some v =>
      split_ifs with hs
      · exact iff_of_false (by simp) fun h => hs.elim (h rfl).1 (h rfl).2
      · exact iff_of_true rfl fun _ => not_or.mp hs
  · intro pair
    rw [pairValue_hexPair]
    split_ifs
    · exact .inl rfl
    · exact .inr rfl

/-- A plus sign is taken for a digit. -/
theorem queryParameter_signed :
    queryParameter (ascii "a=1%+A&a=2") (ascii "a") = ascii "1\n,2" ∧
      exactParameter (ascii "a=1%+A&a=2") (ascii "a") = ascii "2" := by
  decide +kernel

end Pingclair.QueryParameters
