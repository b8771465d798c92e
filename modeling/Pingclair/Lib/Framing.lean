import Pingclair.Lib.ByteText

/-!
# Framed texts

A text behind its length can be told from what follows it.
-/

namespace Framing

open ByteText List Option

/-- The number of lengths that eight bytes can hold. -/
abbrev addressable : Nat := 0x10000000000000000

/-- A number in eight bytes, the highest first. What does not fit is cut off. -/
def bigEndian (n : Nat) : Bytes :=
  [UInt8.ofNat (n / 0x100000000000000), UInt8.ofNat (n / 0x1000000000000),
    UInt8.ofNat (n / 0x10000000000), UInt8.ofNat (n / 0x100000000),
    UInt8.ofNat (n / 0x1000000), UInt8.ofNat (n / 0x10000), UInt8.ofNat (n / 0x100),
    UInt8.ofNat n]

theorem bigEndian_inj {m n : Nat} (hm : m < addressable) (hn : n < addressable)
    (h : bigEndian m = bigEndian n) : m = n := by
  simp only [bigEndian, List.cons.injEq, UInt8.ofNat_eq_iff_mod_eq_toNat, UInt8.toNat_ofNat',
    Nat.reducePow] at h
  simp only [addressable] at hm hn
  omega

def framed (text : Bytes) : Bytes := bigEndian text.length ++ text

theorem framed_append_inj {a b rest rest' : Bytes} (ha : a.length < addressable)
    (hb : b.length < addressable) (h : framed a ++ rest = framed b ++ rest') :
    a = b ∧ rest = rest' := by
  rw [framed, framed, append_assoc, append_assoc] at h
  obtain ⟨hlen, htexts⟩ := append_inj h rfl
  exact append_inj htexts (bigEndian_inj ha hb hlen)

def framedAll (texts : List Bytes) : Bytes := bigEndian texts.length ++ texts.flatMap framed

theorem flatMap_framed_inj {texts texts' : List Bytes} (hc : texts.length = texts'.length)
    (hft : ∀ text ∈ texts, text.length < addressable)
    (hft' : ∀ text ∈ texts', text.length < addressable)
    (h : texts.flatMap framed = texts'.flatMap framed) : texts = texts' := by
  induction texts generalizing texts' with
  | nil => exact (eq_nil_of_length_eq_zero hc.symm).symm
  | cons text texts ih =>
    match texts' with
    | text' :: texts' =>
      obtain ⟨rfl, hrest⟩ := framed_append_inj (hft text mem_cons_self) (hft' text' mem_cons_self) h
      rw [ih (Nat.succ.inj hc) (forall_mem_cons.mp hft).2
        (forall_mem_cons.mp hft').2 hrest]

theorem framedAll_inj {texts texts' : List Bytes} (hc : texts.length < addressable)
    (hc' : texts'.length < addressable) (hft : ∀ text ∈ texts, text.length < addressable)
    (hft' : ∀ text ∈ texts', text.length < addressable)
    (h : framedAll texts = framedAll texts') : texts = texts' := by
  obtain ⟨hnum, htexts⟩ := append_inj h rfl
  exact flatMap_framed_inj (bigEndian_inj hc hc' hnum) hft hft' htexts

end Framing
