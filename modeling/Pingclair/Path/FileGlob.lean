import Pingclair.Lib.Utf8Chars
import Pingclair.Lib.Wildcard

/-!
# Globs over file names

A component of a `file` matcher pattern is compiled to tokens and matched with the names of a
directory. A pattern is text, a name is any bytes: it is read in units, a UTF-8 character where
its bytes form one and a single byte where they do not.

The matcher keeps one way back, to the last `*`, and lets it take one more unit on a mismatch.
-/

namespace Pingclair.FileGlob

open ByteText List Wildcard

abbrev bang : UInt8 := 0x21
abbrev bracket : UInt8 := 0x5B
abbrev closing : UInt8 := 0x5D

inductive Token where
  /-- `*`: any run of characters. -/
  | star
  /-- `?`: exactly one character. -/
  | one
  /-- A character that must appear as written. -/
  | literal (c : Char)
  /-- `[…]`: one character inside, or outside, these inclusive ranges. -/
  | set (negated : Bool) (ranges : List (Char × Char))

def Token.isStar : Token → Bool
  | .star => true
  | _ => false

/-- The index just past the `]` that closes the set whose body and rest are given. -/
def classEnd (body : Bytes) : Option Nat :=
  let index := if body[0]? = some bang then 1 else 0
  -- a `]` first in the set is a member, not the end
  let index := if body[index]? = some closing then index + 1 else index
  ((body.drop index).idxOf? closing).map (index + · + 1)

/-- The ranges of a set's members: `a-c` is one when a member follows the `-`. -/
def setRanges : List Char → List (Char × Char)
  | low :: second :: high :: rest =>
    if second = '-' then (low, high) :: setRanges rest
    else (low, low) :: setRanges (second :: high :: rest)
  | member :: rest => (member, member) :: setRanges rest
  | [] => []

def parseSet (body : Bytes) : Token :=
  match body.dropPrefix? [bang] with
  | some rest => .set true (setRanges (Utf8.chars rest))
  | none => .set false (setRanges (Utf8.chars body))

def compileLoop (pattern : Bytes) (tokens : List Token) : Option (List Token) :=
  match pattern with
  | [] => some tokens
  | b :: rest =>
    if b = star then compileLoop rest (tokens ++ [.star])
    else if b = question then compileLoop rest (tokens ++ [.one])
    else if b = bracket then
      match classEnd rest with
      | none => none
      | some close => compileLoop (rest.drop close) (tokens ++ [parseSet (rest.take (close - 1))])
    else
      match Utf8.nextChar (b :: rest) with
      | none => none
      | some literal =>
        compileLoop (rest.drop (literal.utf8Size - 1)) (tokens ++ [.literal literal])
termination_by pattern.length
decreasing_by all_goals simp; try omega

def compile (pattern : Bytes) : Option (List Token) := compileLoop pattern []

def unitWidth (first : UInt8) : Option Nat :=
  if first ≤ 0x7F then some 1
  else if 0xC0 ≤ first ∧ first ≤ 0xDF then some 2
  else if 0xE0 ≤ first ∧ first ≤ 0xEF then some 3
  else if 0xF0 ≤ first ∧ first ≤ 0xF7 then some 4
  else none

/-- The character at the front of some bytes and how many bytes it spans. A byte that starts no
character is a unit of its own. -/
def nextUnit (bytes : Bytes) : Option Char × Nat :=
  match bytes.head?.bind unitWidth with
  | none => (none, 1)
  | some width =>
    if width ≤ bytes.length ∧ Utf8.valid (bytes.take width) = true then
      (Utf8.nextChar (bytes.take width), width)
    else (none, 1)

def Token.fits : Token → Option Char → Bool
  | .star, _ => false
  | .one, _ => true
  | .literal c, unit => unit == some c
  | .set negated _, none => negated
  | .set negated ranges, some unit =>
    (ranges.any fun range => range.1 ≤ unit && unit ≤ range.2) != negated

/-- The loop of `matches`. The last star is kept as the tokens behind it and the name behind what
it has taken. `none`: the turns did not suffice. -/
def matchesLoop : (turns : Nat) → (tokens : List Token) → (name : Bytes) →
    (last : Option (List Token × Bytes)) → Option Bool
  | 0, _, _, _ => none
  | turns + 1, tokens, name, last =>
    if name = [] then some (tokens.all Token.isStar)
    else if tokens.head?.any Token.isStar then
      matchesLoop turns tokens.tail name (some (tokens.tail, name))
    else if tokens.head?.any (·.fits (nextUnit name).1) then
      matchesLoop turns tokens.tail (name.drop (nextUnit name).2) last
    else
      match last with
      | some (behind, taken) =>
        let taken := taken.drop (nextUnit taken).2
        matchesLoop turns behind taken (some (behind, taken))
      | none => some false

inductive Item where
  | star
  | one
  | literal (c : Char)
  | set (negated : Bool) (members : List Char)

/-- The items that a pattern spells. The first member of a set may be a `]`. -/
inductive Spells : List Char → List Item → Prop
  | nil : Spells [] []
  | star {cs items} : Spells cs items → Spells ('*' :: cs) (.star :: items)
  | one {cs items} : Spells cs items → Spells ('?' :: cs) (.one :: items)
  | literal {cs items} (c : Char) : c ≠ '*' → c ≠ '?' → c ≠ '[' → Spells cs items →
      Spells (c :: cs) (.literal c :: items)
  | inside {cs items} (first : Char) (members : List Char) : first ≠ '!' → ']' ∉ members →
      Spells cs items →
      Spells ('[' :: first :: (members ++ ']' :: cs)) (.set false (first :: members) :: items)
  | outside {cs items} (first : Char) (members : List Char) : ']' ∉ members → Spells cs items →
      Spells ('[' :: '!' :: first :: (members ++ ']' :: cs)) (.set true (first :: members) :: items)

/-- A character is listed among the members of a set: it is one, or in a range `a-c`. Another
`-` is itself a member. -/
inductive Listed (c : Char) : List Char → Prop
  | range {low high rest} : low ≤ c → c ≤ high → Listed c (low :: '-' :: high :: rest)
  | behindRange {low high rest} : Listed c rest → Listed c (low :: '-' :: high :: rest)
  | member {rest} : (∀ high tail, rest ≠ '-' :: high :: tail) → Listed c (c :: rest)
  | behindMember {other rest} : (∀ high tail, rest ≠ '-' :: high :: tail) → Listed c rest →
      Listed c (other :: rest)

/-- The units that an item takes. A byte that is no character is listed in no set. -/
def Item.Takes : Item → List (Option Char) → Prop
  | .star, _ => True
  | .one, piece => ∃ unit, piece = [unit]
  | .literal c, piece => piece = [some c]
  | .set false members, piece => ∃ unit, piece = [unit] ∧ ∃ c ∈ unit, Listed c members
  | .set true members, piece => ∃ unit, piece = [unit] ∧ ¬ ∃ c ∈ unit, Listed c members

/-- A name in units: characters where its bytes form one, single bytes where they do not. -/
inductive Units : Bytes → List (Option Char) → Prop
  | nil : Units [] []
  | char {rest units} (c : Char) : Units rest units →
      Units (String.utf8EncodeChar c ++ rest) (some c :: units)
  | stray {rest units} (b : UInt8) : (∀ c, ¬ String.utf8EncodeChar c <+: b :: rest) →
      Units rest units → Units (b :: rest) (none :: units)

theorem listed_member {c o : Char} {rest : List Char}
    (hno : ∀ high tail, rest ≠ '-' :: high :: tail) :
    Listed c (o :: rest) ↔ c = o ∨ Listed c rest := by
  constructor
  · intro h
    cases h with
    | range => exact absurd rfl (hno _ _)
    | behindRange => exact absurd rfl (hno _ _)
    | member => exact .inl rfl
    | behindMember _ h => exact .inr h
  · rintro (rfl | h)
    · exact .member hno
    · exact .behindMember hno h

variable {members : List Char}

theorem listed_iff {c : Char} :
    Listed c members ↔ ∃ range ∈ setRanges members, range.1 ≤ c ∧ c ≤ range.2 := by
  have hsing (other : Char) (rest : List (Char × Char)) :
      (∃ range ∈ (other, other) :: rest, range.1 ≤ c ∧ c ≤ range.2) ↔
        c = other ∨ ∃ range ∈ rest, range.1 ≤ c ∧ c ≤ range.2 := by
    simp only [mem_cons, exists_eq_or_imp]
    refine or_congr ⟨fun h => Char.le_antisymm h.2 h.1, ?_⟩ Iff.rfl
    rintro rfl
    exact ⟨Char.le_refl c, Char.le_refl c⟩
  induction members using setRanges.induct with
  | case1 low high rest ih =>
    rw [setRanges, if_pos rfl]
    simp only [mem_cons, exists_eq_or_imp]
    refine Iff.trans ?_ (or_congr_right ih)
    constructor
    · intro h
      cases h with
      | range hlow hhigh => exact .inl ⟨hlow, hhigh⟩
      | behindRange h => exact .inr h
      | member hno => exact absurd rfl (hno high rest)
      | behindMember hno => exact absurd rfl (hno high rest)
    · rintro (⟨hlow, hhigh⟩ | h)
      · exact .range hlow hhigh
      · exact .behindRange h
  | case2 low second high rest hdash ih =>
    rw [setRanges, if_neg hdash, hsing]
    refine (listed_member fun high' tail heq => ?_).trans (or_congr_right ih)
    exact hdash (List.cons.inj heq).1
  | case3 member rest hsh ih =>
    rw [setRanges, hsing]
    · refine (listed_member fun high tail heq => ?_).trans (or_congr_right ih)
      exact hsh '-' high tail heq
    · exact hsh
  | case4 =>
    simp only [setRanges, not_mem_nil, false_and, exists_false, iff_false]
    intro h
    cases h

def Item.token : Item → Token
  | .star => .star
  | .one => .one
  | .literal c => .literal c
  | .set negated members => .set negated (setRanges members)

theorem takes_iff (item : Item) (piece : List (Option Char)) :
    item.Takes piece ↔
      item.token.isStar = true ∨ ∃ unit, piece = [unit] ∧ item.token.fits unit = true := by
  have hltd (members : List Char) (unit : Char) :
      ((setRanges members).any fun range => range.1 ≤ unit && unit ≤ range.2) = true ↔
        Listed unit members := by
    rw [listed_iff, any_eq_true]
    simp
  cases item with
  | star => simp [Item.Takes, Item.token, Token.isStar]
  | one => simp [Item.Takes, Item.token, Token.isStar, Token.fits]
  | literal c => simp [Item.Takes, Item.token, Token.isStar, Token.fits]
  | set n members =>
    have hft (unit : Option Char) : (Item.set n members).token.fits unit = true ↔
        if n then ¬ ∃ c ∈ unit, Listed c members else ∃ c ∈ unit, Listed c members := by
      cases unit with
      | none => cases n <;> simp [Item.token, Token.fits]
      | some unit =>
        simp only [Item.token, Token.fits, Option.mem_def, Option.some.injEq, exists_eq_left']
        rw [← hltd]
        cases n <;> simp
    simp only [hft]
    cases n <;> simp [Item.Takes, Item.token, Token.isStar]

/-! ### Compiling -/

open Utf8

theorem closing_eq : closing = asciiByte ']' := rfl

theorem bang_eq : bang = asciiByte '!' := rfl

theorem close_eq (before : Bytes) (cs : List Char) :
    let body := before ++ encode cs
    let ind := if body[before.length]? = some closing then before.length + 1 else before.length
    ((body.drop ind).idxOf? closing).map (ind + · + 1) =
      (cs.tail.idxOf? ']').map fun i => before.length + (encode (cs.take (i + 1))).length + 1 := by
  have hhd : (before ++ encode cs)[before.length]? = (encode cs).head? := by
    rw [List.getElem?_append_right (Nat.le_refl _), Nat.sub_self, ← List.head?_eq_getElem?]
  dsimp only
  rw [hhd]
  cases cs with
  | nil => simp
  | cons f cs =>
    by_cases hf : f = ']'
    · have henc (cs : List Char) : encode (']' :: cs) = closing :: encode cs := rfl
      have hdr : (before ++ closing :: encode cs).drop (before.length + 1) = encode cs := by
        rw [← drop_drop, drop_left, drop_one, tail_cons]
      rw [hf, henc, List.head?_cons, if_pos rfl, hdr, closing_eq,
        idxOf?_encode (by decide), Option.map_map]
      refine congrArg (Option.map · _) (funext fun i => ?_)
      simp [henc]
      omega
    · have hn : (encode (f :: cs)).head? ≠ some closing := by
        rw [closing_eq, Ne, head?_encode (by decide)]
        simpa using hf
      rw [if_neg hn, drop_left, closing_eq, idxOf?_encode (by decide), List.idxOf?_cons,
        if_neg (by simpa using hf), Option.map_map, Option.map_map]
      rfl

theorem classEnd_eq {cs : List Char} (h : cs.head? ≠ some '!') :
    classEnd (encode cs) =
      (cs.tail.idxOf? ']').map fun i => (encode (cs.take (i + 1))).length + 1 := by
  have hn : (encode cs)[0]? ≠ some bang := by
    rwa [← List.head?_eq_getElem?, bang_eq, Ne, head?_encode (by decide)]
  rw [classEnd, if_neg hn]
  simpa using close_eq [] cs

variable (cs : List Char)

theorem classEnd_bang :
    classEnd (encode ('!' :: cs)) =
      (cs.tail.idxOf? ']').map fun i => (encode ('!' :: cs.take (i + 1))).length + 1 := by
  have hbang (cs : List Char) : encode ('!' :: cs) = bang :: encode cs := rfl
  rw [classEnd, hbang, if_pos List.getElem?_cons_zero]
  simpa [hbang, Nat.add_comm] using close_eq [bang] cs

theorem idxOf?_members (h : ']' ∉ members) (cs : List Char) :
    (members ++ ']' :: cs).idxOf? ']' = some members.length := by
  refine List.idxOf?_eq_some_iff.mpr ⟨by simp, by simp, fun j hj => ?_⟩
  rw [getElem_append_left hj]
  exact fun heq => h (heq ▸ getElem_mem hj)

theorem classEnd_inside {first : Char} (hf : first ≠ '!') (h : ']' ∉ members) (cs : List Char) :
    classEnd (encode ((first :: members) ++ ']' :: cs)) =
      some ((encode (first :: members)).length + 1) := by
  rw [classEnd_eq (by simpa using hf), cons_append, tail_cons, idxOf?_members h]
  simp

theorem classEnd_outside (h : ']' ∉ members) (first : Char) (cs : List Char) :
    classEnd (encode (('!' :: first :: members) ++ ']' :: cs)) =
      some ((encode ('!' :: first :: members)).length + 1) := by
  rw [cons_append, classEnd_bang, cons_append, tail_cons, idxOf?_members h]
  simp

/-- A set closes behind its first member, or not at all. -/
theorem classEnd_cases :
    (∃ first members rest, cs = first :: (members ++ ']' :: rest) ∧ first ≠ '!' ∧
        ']' ∉ members) ∨
      (∃ first members rest, cs = '!' :: first :: (members ++ ']' :: rest) ∧ ']' ∉ members) ∨
      classEnd (encode cs) = none := by
  have hsp (cs : List Char) : (∃ first members rest, cs = first :: (members ++ ']' :: rest) ∧
      ']' ∉ members) ∨ cs.tail.idxOf? ']' = none := by
    cases cs with
    | nil => exact .inr rfl
    | cons first cs =>
      by_cases hmem : ']' ∈ cs
      · obtain ⟨members, rest, rfl, hn⟩ := eq_append_cons_of_mem hmem
        exact .inl ⟨first, members, rest, rfl, hn⟩
      · exact .inr (List.idxOf?_eq_none_iff.mpr hmem)
  by_cases hbang : cs.head? = some '!'
  · obtain ⟨cs, rfl⟩ := List.head?_eq_some_iff.mp hbang
    rcases hsp cs with ⟨first, members, rest, rfl, hn⟩ | hnone
    · exact .inr (.inl ⟨first, members, rest, rfl, hn⟩)
    · exact .inr (.inr (by rw [classEnd_bang, hnone]; rfl))
  · rcases hsp cs with ⟨first, members, rest, rfl, hn⟩ | hnone
    · exact .inl ⟨first, members, rest, rfl, by simpa using hbang, hn⟩
    · exact .inr (.inr (by rw [classEnd_eq hbang, hnone]; rfl))

theorem compileLoop_star (tokens : List Token) :
    compileLoop (encode ('*' :: cs)) tokens = compileLoop (encode cs) (tokens ++ [.star]) := by
  have henc : encode ('*' :: cs) = star :: encode cs := rfl
  rw [henc, compileLoop, if_pos rfl]

theorem compileLoop_one (tokens : List Token) :
    compileLoop (encode ('?' :: cs)) tokens = compileLoop (encode cs) (tokens ++ [.one]) := by
  have henc : encode ('?' :: cs) = question :: encode cs := rfl
  rw [henc, compileLoop, if_neg (by decide), if_pos rfl]

theorem compileLoop_literal {c : Char} (hstar : c ≠ '*') (hone : c ≠ '?') (hset : c ≠ '[')
    (cs : List Char) (tokens : List Token) :
    compileLoop (encode (c :: cs)) tokens = compileLoop (encode cs) (tokens ++ [.literal c]) := by
  have hnx := nextChar_encode c (encode cs)
  have hsz := String.length_utf8EncodeChar c
  have hmem {a : Char} (ha : a.val.toNat < 0x80) (hne : c ≠ a) :
      asciiByte a ∉ String.utf8EncodeChar c := fun hmem => hne ((mem_encodeChar ha).mp hmem)
  have hstar := hmem (show '*'.val.toNat < 0x80 by decide) hstar
  have hone := hmem (show '?'.val.toNat < 0x80 by decide) hone
  have hset := hmem (show '['.val.toNat < 0x80 by decide) hset
  rw [encode_cons]
  obtain ⟨b, rest, hc⟩ := exists_cons_of_ne_nil (String.utf8EncodeChar_ne_nil (c := c))
  rw [hc] at hnx hsz hstar hone hset ⊢
  simp only [mem_cons, not_or] at hstar hone hset
  have hstar : b ≠ star := Ne.symm hstar.1
  have hone : b ≠ question := Ne.symm hone.1
  have hset : b ≠ bracket := Ne.symm hset.1
  rw [cons_append] at hnx ⊢
  rw [compileLoop, if_neg hstar, if_neg hone, if_neg hset, hnx]
  have hdr : (rest ++ encode cs).drop (c.utf8Size - 1) = encode cs := by
    rw [← hsz, length_cons, Nat.add_sub_cancel, drop_left]
  dsimp only
  rw [hdr]

/-- A set is read up to the `]` that closes it. -/
theorem compileLoop_set {body cs : List Char}
    (hend : classEnd (encode (body ++ ']' :: cs)) = some ((encode body).length + 1))
    (tokens : List Token) :
    compileLoop (encode ('[' :: (body ++ ']' :: cs))) tokens =
      compileLoop (encode cs) (tokens ++ [parseSet (encode body)]) := by
  have henc : encode ('[' :: (body ++ ']' :: cs)) = bracket :: encode (body ++ ']' :: cs) := rfl
  have hcls : encode (']' :: cs) = closing :: encode cs := rfl
  rw [henc, compileLoop, if_neg (by decide), if_neg (by decide), if_pos rfl, hend]
  dsimp only
  rw [Nat.add_sub_cancel, encode_append, hcls, take_left, ← drop_drop, drop_left,
    drop_one, tail_cons]

theorem parseSet_inside {first : Char} (hf : first ≠ '!') (members : List Char) :
    parseSet (encode (first :: members)) = (Item.set false (first :: members)).token := by
  have hstr : (encode (first :: members)).dropPrefix? [bang] = none := by
    cases hdr : (encode (first :: members)).dropPrefix? [bang] with
    | none => rfl
    | some rest =>
      have hhd : (encode (first :: members)).head? = some (asciiByte '!') := by
        rw [dropPrefix?_eq_some.mp hdr]
        rfl
      rw [head?_encode (by decide), List.head?_cons, Option.some.injEq] at hhd
      exact absurd hhd hf
  rw [parseSet, hstr]
  rw [chars_encode]
  rfl

theorem parseSet_outside (members : List Char) :
    parseSet (encode ('!' :: members)) = (Item.set true members).token := by
  have henc : encode ('!' :: members) = bang :: encode members := rfl
  have hstr : (bang :: encode members).dropPrefix? [bang] = some (encode members) :=
    dropPrefix?_eq_some.mpr rfl
  rw [henc, parseSet, hstr]
  dsimp only
  rw [chars_encode]
  rfl

/-- A pattern compiles to the tokens of the items that it spells. -/
theorem compileLoop_of_spells {cs : List Char} {its : List Item} (h : Spells cs its)
    (tokens : List Token) :
    compileLoop (encode cs) tokens = some (tokens ++ its.map Item.token) := by
  induction h generalizing tokens with
  | nil => simp [compileLoop]
  | star _ ih =>
    rw [compileLoop_star, ih, append_assoc]
    rfl
  | one _ ih =>
    rw [compileLoop_one, ih, append_assoc]
    rfl
  | literal c hstar hone hset _ ih =>
    rw [compileLoop_literal hstar hone hset, ih, append_assoc]
    rfl
  | inside f ms hf hms _ ih =>
    rw [← cons_append, compileLoop_set (classEnd_inside hf hms _), ih,
      parseSet_inside hf, append_assoc]
    rfl
  | outside f ms hms _ ih =>
    rw [← cons_append, ← cons_append, compileLoop_set (classEnd_outside hms f _), ih,
      parseSet_outside, append_assoc]
    rfl

theorem exists_spells {cs : List Char} {tokens all : List Token}
    (h : compileLoop (encode cs) tokens = some all) : ∃ items, Spells cs items := by
  -- each item takes some characters off the front
  obtain ⟨n, hn⟩ : ∃ n, cs.length = n := ⟨_, rfl⟩
  induction n using Nat.strong_induction_on generalizing cs tokens with
  | _ n ih =>
    cases cs with
    | nil => exact ⟨[], .nil⟩
    | cons c cs =>
      rw [length_cons] at hn
      by_cases hstar : c = '*'
      · subst hstar
        rw [compileLoop_star] at h
        obtain ⟨items, hitems⟩ := ih cs.length (by omega) h rfl
        exact ⟨_, hitems.star⟩
      by_cases hone : c = '?'
      · subst hone
        rw [compileLoop_one] at h
        obtain ⟨items, hitems⟩ := ih cs.length (by omega) h rfl
        exact ⟨_, hitems.one⟩
      by_cases hset : c = '['
      · subst hset
        rcases classEnd_cases cs with ⟨f, ms, rest, rfl, hf, hms⟩ |
          ⟨f, ms, rest, rfl, hms⟩ | hnone
        · rw [← cons_append, compileLoop_set (classEnd_inside hf hms rest)] at h
          obtain ⟨items, hitems⟩ := ih rest.length (by simp at hn; omega) h rfl
          exact ⟨_, hitems.inside f ms hf hms⟩
        · rw [← cons_append, ← cons_append, compileLoop_set (classEnd_outside hms f rest)] at h
          obtain ⟨items, hitems⟩ := ih rest.length (by simp at hn; omega) h rfl
          exact ⟨_, hitems.outside f ms hms⟩
        · have henc : encode ('[' :: cs) = bracket :: encode cs := rfl
          rw [henc, compileLoop, if_neg (by decide), if_pos rfl, hnone] at h
          cases h
      · rw [compileLoop_literal hstar hone hset] at h
        obtain ⟨items, hitems⟩ := ih cs.length (by omega) h rfl
        exact ⟨_, hitems.literal c hstar hone hset⟩

theorem unitWidth_of_owed {b : UInt8} {rs : List Range} (h : owed b = some rs) :
    unitWidth b = some (rs.length + 1) := by
  have ha : ∀ b : UInt8, ((owed b).all fun rs => unitWidth b == some (rs.length + 1)) = true :=
    forall_byte (by decide +kernel)
  have hb := ha b
  rw [h, Option.all_some, beq_iff_eq] at hb
  exact hb

theorem nextUnit_pos (bs : Bytes) : 0 < (nextUnit bs).2 := by
  rw [nextUnit]
  split
  · exact Nat.one_pos
  · next w hw =>
    split
    · obtain ⟨b, -, hb⟩ := Option.bind_eq_some_iff.mp hw
      rw [unitWidth] at hb
      split_ifs at hb <;> cases hb <;> exact Nat.succ_pos _
    · exact Nat.one_pos

theorem nextUnit_char (c : Char) (rest : Bytes) :
    nextUnit (String.utf8EncodeChar c ++ rest) = (some c, (String.utf8EncodeChar c).length) := by
  obtain ⟨b, s, rs, hc, howed, hfls⟩ := owed_encode c
  have hlen : (b :: s).length = rs.length + 1 := by
    rw [length_cons, ← List.Forall₂.length_eq hfls]
  have hv : valid (b :: s) = true := by
    rw [← hc, ← append_nil (String.utf8EncodeChar c), valid_encode_append]
    rfl
  have hrd : nextChar (b :: s) = some c := by
    rw [← hc, ← append_nil (String.utf8EncodeChar c)]
    exact nextChar_encode c []
  have hw : ((b :: s) ++ rest).head?.bind unitWidth = some (b :: s).length := by
    rw [cons_append, List.head?_cons, Option.bind_some, unitWidth_of_owed howed, hlen]
  rw [hc, nextUnit, hw]
  dsimp only
  rw [take_left, if_pos ⟨by simp, hv⟩, hrd]

theorem nextUnit_cases (bs : Bytes) :
    (∃ c rest, bs = String.utf8EncodeChar c ++ rest ∧
        nextUnit bs = (some c, (String.utf8EncodeChar c).length)) ∨
      nextUnit bs = (none, 1) := by
  rw [nextUnit]
  cases hw : bs.head?.bind unitWidth with
  | none => exact .inr rfl
  | some width =>
    dsimp only
    split
    · next h =>
      obtain ⟨hlen, hv⟩ := h
      obtain ⟨b, hhd, hb⟩ := Option.bind_eq_some_iff.mp hw
      obtain ⟨bs, rfl⟩ := List.head?_eq_some_iff.mp hhd
      obtain ⟨width, rfl⟩ : ∃ n, width = n + 1 := by
        rw [unitWidth] at hb
        split_ifs at hb <;> cases hb <;> exact ⟨_, rfl⟩
      rw [take_succ_cons] at hv ⊢
      rw [valid, validFrom] at hv
      cases howed : owed b with
      | none => simp [howed] at hv
      | some rs =>
        simp only [howed] at hv
        have hrs : rs.length = width := by
          have := (unitWidth_of_owed howed).symm.trans hb
          simpa using this
        have hfls := fills_of_validFrom hv (by rw [hrs, length_take]; exact Nat.min_le_left ..)
        obtain ⟨c, hc⟩ := exists_encode howed hfls
        have hsp : b :: bs = String.utf8EncodeChar c ++ bs.drop width := by
          rw [hc, cons_append, take_append_drop]
        refine .inl ⟨c, bs.drop width, hsp, ?_⟩
        have hrd := nextChar_encode c []
        rw [append_nil, hc] at hrd
        rw [hrd, hc, length_cons, ← List.Forall₂.length_eq hfls, hrs]
    · exact .inr rfl

def units (name : Bytes) : List (Option Char) :=
  match name with
  | [] => []
  | b :: rest =>
    (nextUnit (b :: rest)).1 :: units (rest.drop ((nextUnit (b :: rest)).2 - 1))
termination_by name.length
decreasing_by
  rw [length_drop, length_cons]
  omega

variable {name : Bytes}

theorem units_eq (hne : name ≠ []) :
    units name = (nextUnit name).1 :: units (name.drop (nextUnit name).2) := by
  obtain ⟨b, rest, rfl⟩ := exists_cons_of_ne_nil hne
  have hp := nextUnit_pos (b :: rest)
  have hdr : (b :: rest).drop (nextUnit (b :: rest)).2 =
      rest.drop ((nextUnit (b :: rest)).2 - 1) := by
    obtain ⟨n, hn⟩ := Nat.exists_eq_succ_of_ne_zero (Nat.pos_iff_ne_zero.mp hp)
    rw [hn, drop_succ_cons, Nat.succ_sub_one]
  rw [units, hdr]

@[simp] theorem units_nil : units [] = [] := by rw [units]

theorem units_of_units {list : List (Option Char)} (h : Units name list) : units name = list := by
  induction h with
  | nil => exact units_nil
  | char c _ ih =>
    rw [units_eq (append_ne_nil_of_left_ne_nil String.utf8EncodeChar_ne_nil _),
      nextUnit_char, drop_left, ih]
  | stray b hno _ ih =>
    have hnx := (nextUnit_cases (b :: _)).resolve_left (by
      rintro ⟨c, rest, heq, -⟩
      exact hno c ⟨rest, heq.symm⟩)
    rw [units_eq (cons_ne_nil _ _), hnx, drop_one, tail_cons, ih]

theorem units_units (name : Bytes) : Units name (units name) := by
  induction hn : name.length using Nat.strong_induction_on generalizing name with
  | _ n ih =>
    by_cases hne : name = []
    · rw [hne, units_nil]
      exact .nil
    · have hlen := length_pos_iff.mpr hne
      have hp := nextUnit_pos name
      rw [units_eq hne]
      have hrest := ih (name.drop (nextUnit name).2).length (by rw [length_drop]; omega) _ rfl
      by_cases hch : ∃ c, String.utf8EncodeChar c <+: name
      · obtain ⟨c, rest, rfl⟩ := hch
        rw [nextUnit_char, drop_left] at hrest ⊢
        exact .char c hrest
      · have hnx := (nextUnit_cases name).resolve_left (by
          rintro ⟨c, rest, heq, -⟩
          exact hch ⟨c, rest, heq.symm⟩)
        obtain ⟨b, rest, rfl⟩ := exists_cons_of_ne_nil hne
        rw [hnx, drop_one] at hrest ⊢
        exact .stray b (fun c hpre => hch ⟨c, hpre⟩) hrest

/-! ### Matching -/

section

variable {tokens : List Token} {name : Bytes}

theorem matchesLoop_nil (turns : Nat) (last : Option (List Token × Bytes)) :
    matchesLoop (turns + 1) tokens [] last = some (tokens.all Token.isStar) := by
  rcases last with _ | ⟨behind, taken⟩ <;> rw [matchesLoop, if_pos rfl]

theorem matchesLoop_star (hname : name ≠ []) (hstar : tokens.head?.any Token.isStar = true)
    (turns : Nat) (last : Option (List Token × Bytes)) :
    matchesLoop (turns + 1) tokens name last =
      matchesLoop turns tokens.tail name (some (tokens.tail, name)) := by
  rcases last with _ | ⟨behind, taken⟩ <;> rw [matchesLoop, if_neg hname, if_pos hstar]

theorem matchesLoop_fits (hn : name ≠ []) (hstar : tokens.head?.any Token.isStar = false)
    (hft : tokens.head?.any (·.fits (nextUnit name).1) = true) (turns : Nat)
    (last : Option (List Token × Bytes)) :
    matchesLoop (turns + 1) tokens name last =
      matchesLoop turns tokens.tail (name.drop (nextUnit name).2) last := by
  rcases last with _ | ⟨b, t⟩ <;>
    rw [matchesLoop, if_neg hn, if_neg (by simp [hstar]), if_pos hft]

end

/-- The loop over bytes stands where the scan over units stands. -/
structure Follows (s : Wildcard.Scan Token.isStar (Option Char)) (tokens : List Token)
    (name : Bytes) (last : Option (List Token × Bytes)) : Prop where
  tokens : s.pattern = tokens
  text : s.text = units name
  retry : s.retry = last.map fun behind => (behind.1, units behind.2)

theorem units_eq_nil : units name = [] ↔ name = [] := by
  constructor
  · intro h
    by_contra hne
    rw [units_eq hne] at h
    cases h
  · rintro rfl
    exact units_nil

theorem tail_units (name : Bytes) : (units name).tail = units (name.drop (nextUnit name).2) := by
  by_cases hne : name = []
  · rw [hne, drop_nil, units_nil, tail_nil]
  · rw [units_eq hne, tail_cons]

variable {last : Option (List Token × Bytes)} {s : Scan Token.isStar (Option Char)}

/-- Where the scan finds a mismatch, no token of the loop is a star or takes the next unit. -/
theorem Follows.mismatch {tokens : List Token} (h : Follows s tokens name last) (hn : name ≠ [])
    (hmis : s.Mismatch Token.fits) :
    tokens.head?.any Token.isStar = false ∧
      tokens.head?.any (·.fits (nextUnit name).1) = false := by
  cases tokens with
  | nil => exact ⟨rfl, rfl⟩
  | cons token rest =>
    exact hmis token rest _ _ h.tokens (h.text.trans (units_eq hn))

/-- Enough turns of the loop give the answer of the scan. -/
theorem matchesLoop_eq_scan {tokens : List Token} (h : Follows s tokens name last) :
    ∃ enough, ∀ turns, enough ≤ turns →
      matchesLoop turns tokens name last = some (scan Token.isStar Token.fits s) := by
  induction s using scan.induct Token.isStar Token.fits generalizing tokens name last with
  | case1 s ht =>
    have hn : name = [] := units_eq_nil.mp (h.text.symm.trans ht)
    refine ⟨1, fun turns hturns => ?_⟩
    obtain ⟨turns, rfl⟩ := Nat.exists_eq_add_of_le' hturns
    rw [hn, matchesLoop_nil, scan, dif_pos ht, h.tokens]
  | case2 s hne hst =>
    have hn : name ≠ [] := fun hni => hne (h.text.trans (hni ▸ units_nil))
    obtain ⟨hmis, hrty⟩ := Scan.step_eq_none hne hst
    obtain ⟨hstar, hft⟩ := h.mismatch hn hmis
    have hla : last = none := Option.map_eq_none_iff.mp (h.retry.symm.trans hrty)
    refine ⟨1, fun turns hturns => ?_⟩
    obtain ⟨turns, rfl⟩ := Nat.exists_eq_add_of_le' hturns
    rw [hla, matchesLoop, if_neg hn, if_neg (by simp [hstar]), if_neg (by simp [hft]),
      scan, dif_neg hne, hst]
  | case3 s hne s' hst ih =>
    have hn : name ≠ [] := fun hni => hne (h.text.trans (hni ▸ units_nil))
    have hsc : scan Token.isStar Token.fits s = scan Token.isStar Token.fits s' := by
      rw [scan, dif_neg hne, hst]
    -- one turn of the loop, and then as many as the scan needs
    have hturn {tokens' : List Token} {name' : Bytes} {last' : Option (List Token × Bytes)}
        (hfol : Follows s' tokens' name' last')
        (hone : ∀ turns, matchesLoop (turns + 1) tokens name last =
          matchesLoop turns tokens' name' last') :
        ∃ enough, ∀ turns, enough ≤ turns → matchesLoop turns tokens name last =
          some (scan Token.isStar Token.fits s) := by
      obtain ⟨enough, henough⟩ := ih hfol
      refine ⟨enough + 1, fun turns hturns => ?_⟩
      obtain ⟨turns, rfl⟩ := Nat.exists_eq_add_of_le' (Nat.le_trans (Nat.le_add_left 1 _) hturns)
      rw [hone, henough turns (by omega), hsc]
    rcases Scan.step_cases hne hst with ⟨t, hpat, hstar, ht, hrty⟩ |
      ⟨t, u, hpat, hstar, hft, ht, hrty⟩ | ⟨hmis, text, hrty, ht, hrty'⟩
    · obtain rfl : tokens = t :: s'.pattern := h.tokens.symm.trans hpat
      have hrty : s'.retry = some (s'.pattern, units name) := by rw [hrty, h.text]
      have hfol : Follows s' s'.pattern name (some (s'.pattern, name)) :=
        ⟨rfl, ht.trans h.text, hrty⟩
      have hhd : (t :: s'.pattern).head?.any Token.isStar = true := hstar
      exact hturn hfol fun turns => matchesLoop_star hn hhd turns last
    · obtain rfl : tokens = t :: s'.pattern := h.tokens.symm.trans hpat
      obtain ⟨rfl, hrest⟩ : u = (nextUnit name).1 ∧
          s'.text = units (name.drop (nextUnit name).2) := by
        have heq := ht.symm.trans (h.text.trans (units_eq hn))
        exact List.cons.inj heq
      have hhd : (t :: s'.pattern).head?.any Token.isStar = false := hstar
      exact hturn ⟨rfl, hrest, hrty.trans h.retry⟩
        fun turns => matchesLoop_fits hn hhd hft turns last
    · obtain ⟨hstar, hft⟩ := h.mismatch hn hmis
      obtain ⟨⟨b, tk⟩, hla, hbehind⟩ := Option.map_eq_some_iff.mp (h.retry.symm.trans hrty)
      obtain ⟨rfl, rfl⟩ := Prod.mk.inj hbehind
      rw [tail_units] at ht hrty'
      have hfol : Follows s' s'.pattern (tk.drop (nextUnit tk).2)
          (some (s'.pattern, tk.drop (nextUnit tk).2)) := ⟨rfl, ht, hrty'⟩
      refine hturn hfol fun turns => ?_
      rw [hla, matchesLoop, if_neg hn, if_neg (by simp [hstar]), if_neg (by simp [hft])]

/-- The units can be cut into pieces that the items take, one each. -/
def Cut (items : List Item) (list : List (Option Char)) : Prop :=
  ∃ pieces : List (List (Option Char)), pieces.flatten = list ∧ List.Forall₂ Item.Takes items pieces

theorem scan_iff_cut (its : List Item) (list : List (Option Char)) :
    scan Token.isStar Token.fits (.start (its.map Item.token) list) = true ↔ Cut its list := by
  have htakes : Item.Takes = fun i p => i.token.isStar = true ∨
      ∃ unit, p = [unit] ∧ i.token.fits unit = true := by
    funext i p
    exact propext (takes_iff i p)
  rw [Cut, htakes, scan_start, matches_iff_pieces]
  simp

/-- For every pattern that compiles and every name: the matcher stops, and answers whether the
units of the name can be cut into pieces that the items of the pattern take, one each. The pattern
spells some items and the name has some units. -/
theorem glob_matches_iff (pattern : List Char) (name : Bytes) (tokens : List Token)
    (hcompile : compile (encode pattern) = some tokens) :
    (∃ items, Spells pattern items) ∧ (∃ list, Units name list) ∧
      ∃ answer : Bool,
        (∃ enough, ∀ turns, enough ≤ turns → matchesLoop turns tokens name none = some answer) ∧
        ∀ items list, Spells pattern items → Units name list →
          (answer = true ↔ ∃ pieces : List (List (Option Char)), pieces.flatten = list ∧
            List.Forall₂ Item.Takes items pieces) := by
  refine ⟨exists_spells hcompile, ⟨_, units_units name⟩,
    scan Token.isStar Token.fits (.start tokens (units name)), ?_, ?_⟩
  · exact matchesLoop_eq_scan ⟨rfl, rfl, rfl⟩
  · intro items list hitems hls
    have htks : tokens = items.map Item.token := by
      have h := (compileLoop_of_spells hitems []).symm.trans hcompile
      exact (Option.some.inj h).symm
    rw [htks, units_of_units hls]
    exact scan_iff_cut items list

def sample : List Char := ['c', '?', 'f', '[', '!', 'a', '-', 'c', ']', '*']

theorem spells_sample :
    Spells sample [.literal 'c', .one, .literal 'f', .set true ['a', '-', 'c'], .star] :=
  .literal 'c' (by decide) (by decide) (by decide) <| .one <|
    .literal 'f' (by decide) (by decide) (by decide) <|
      .outside 'a' ['-', 'c'] (by decide) <| .star .nil

/-- The matcher stops on the name `caf\xE9.`, whose fourth byte is no character. -/
theorem glob_matches_iff_sample :
    ∃ tokens, compile (encode sample) = some tokens ∧
      ∃ answer : Bool, (∃ enough, ∀ turns, enough ≤ turns →
          matchesLoop turns tokens [0x63, 0x61, 0x66, 0xE9, 0x2E] none = some answer) ∧
        ∀ list, Units [0x63, 0x61, 0x66, 0xE9, 0x2E] list →
          (answer = true ↔ ∃ pieces : List (List (Option Char)), pieces.flatten = list ∧
            List.Forall₂ Item.Takes
              [.literal 'c', .one, .literal 'f', .set true ['a', '-', 'c'], .star] pieces) := by
  have hcmp := compileLoop_of_spells spells_sample []
  obtain ⟨-, -, answer, hstops, hans⟩ :=
    glob_matches_iff sample [0x63, 0x61, 0x66, 0xE9, 0x2E] _ hcmp
  exact ⟨_, hcmp, answer, hstops, fun list hls => hans _ list spells_sample hls⟩

end Pingclair.FileGlob
