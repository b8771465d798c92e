import Pingclair.Http.Substitution

/-!
# The placeholders of a text

A placeholder is a known name without braces, in braces. The scanner takes for a name whatever
stands between the first opening brace and the next closing one, or the end of the text.
-/

namespace Pingclair.Substitution

open ByteText Templates List

def bracedName (rest : Bytes) : Option Bytes :=
  (splitOnce closeBrace rest).bind fun p =>
    if openBrace ∉ p.1 ∧ isPlaceholder p.1 then some p.1 else none

/-- A text with its placeholders as holes. The count is of what still belongs to the last one. -/
def exactPieces : Nat → Bytes → List (Piece Bytes)
  | _, [] => []
  | n + 1, _ :: rest => exactPieces n rest
  | 0, c :: rest =>
    match if c = openBrace then bracedName rest else none with
    | some name => .hole name :: exactPieces (name.length + 1) rest
    | none => .byte c :: exactPieces 0 rest

/-- In front of a closing brace, a name is known behind the first opening brace and the last one
only if they are the same. -/
def NamedOnce (seg : Bytes) : Prop :=
  ∀ front name, seg = front ++ openBrace :: name → isPlaceholder name →
    (openBrace ∉ front ↔ openBrace ∉ name)

/-- No opening brace comes behind the last closing one, and none comes between a name and its
brace. -/
structure BracesMatch (text : Bytes) : Prop where
  named : ∀ seg ∈ (text.splitOn closeBrace).dropLast, NamedOnce seg
  closed : ∀ seg ∈ (text.splitOn closeBrace).getLast?, openBrace ∉ seg

variable {seg rest : Bytes}

theorem exactPieces_append (seg rest : Bytes) (n : Nat) :
    exactPieces (seg.length + n) (seg ++ rest) = exactPieces n rest := by
  induction seg with
  | nil => rw [length_nil, Nat.zero_add, nil_append]
  | cons c seg ih => rw [length_cons, Nat.add_right_comm, cons_append, exactPieces, ih]

theorem exactPieces_ne {c : UInt8} (hc : c ≠ openBrace) :
    exactPieces 0 (c :: rest) = .byte c :: exactPieces 0 rest := by
  rw [exactPieces, if_neg hc]

theorem forall_eq_append {c : UInt8} {p : Bytes → Bytes → Prop} :
    (∀ front name, c :: seg = front ++ openBrace :: name → p front name) ↔
      (c = openBrace → p [] seg) ∧
        ∀ front name, seg = front ++ openBrace :: name → p (c :: front) name := by
  constructor
  · exact fun h => ⟨fun hc => h [] seg (hc ▸ rfl), fun front name he => h _ name (he ▸ rfl)⟩
  · rintro ⟨hc, h⟩ front name he
    cases front with
    | nil =>
      obtain ⟨rfl, rfl⟩ := cons.inj he
      exact hc rfl
    | cons d front =>
      obtain ⟨rfl, hr⟩ := cons.inj he
      exact h front name hr

theorem readPlaceholders_append (name : Bytes) (hs : closeBrace ∉ seg) (rest : Bytes) :
    readPlaceholders (some name) ((seg ++ rest).map .written) =
      readPlaceholders (some (name ++ seg)) (rest.map .written) := by
  induction seg generalizing name with
  | nil => rw [nil_append, append_nil]
  | cons c seg ih =>
    obtain ⟨hc, ht⟩ := not_or.mp (mem_cons.not.mp hs)
    rw [cons_append, map_cons, readPlaceholders, if_neg (Ne.symm hc), ih _ ht, append_assoc]
    rfl

section Closed

variable (hs : closeBrace ∉ seg)

include hs

theorem bracedName_append : bracedName (seg ++ closeBrace :: rest) =
    if openBrace ∉ seg ∧ isPlaceholder seg then some seg else none := by
  rw [bracedName, splitOnce_append hs]
  rfl

theorem exactPieces_of_not_mem : exactPieces 0 seg = seg.map .byte := by
  induction seg with
  | nil => rfl
  | cons c seg ih =>
    obtain ⟨-, ht⟩ := not_or.mp (mem_cons.not.mp hs)
    have hn : bracedName seg = none := by
      rw [bracedName, splitOnce_of_not_mem ht]
      rfl
    rw [exactPieces, hn, ite_self, ih ht, map_cons]

theorem exactPieces_brace :
    exactPieces 0 (openBrace :: seg ++ closeBrace :: rest) =
      if openBrace ∉ seg ∧ isPlaceholder seg then .hole seg :: exactPieces 0 rest
      else .byte openBrace :: exactPieces 0 (seg ++ closeBrace :: rest) := by
  rw [cons_append, exactPieces, if_pos rfl, bracedName_append hs]
  split_ifs
  · have hr := exactPieces_append (seg ++ [closeBrace]) rest 0
    simp only [length_append, length_singleton, Nat.add_zero, append_assoc, singleton_append] at hr
    exact congrArg (.hole seg :: ·) hr
  · rfl

/-- A text that is kept as it is has no placeholder behind its last opening brace. -/
theorem map_byte_eq_iff {ps : List (Piece Bytes)} :
    (seg ++ [closeBrace]).map .byte ++ ps = exactPieces 0 (seg ++ closeBrace :: rest) ↔
      (∀ front name, seg = front ++ openBrace :: name → openBrace ∉ name →
        isPlaceholder name = false) ∧ ps = exactPieces 0 rest := by
  induction seg with
  | nil =>
    simp [exactPieces_ne (show closeBrace ≠ openBrace by decide)]
  | cons c seg ih =>
    obtain ⟨-, ht⟩ := not_or.mp (mem_cons.not.mp hs)
    rw [forall_eq_append]
    by_cases hc : c = openBrace
    · subst hc
      rw [exactPieces_brace ht]
      split_ifs with h
      · refine iff_of_false (by simp) fun hf => ?_
        exact absurd (hf.1.1 rfl h.1) (by simp [h.2])
      · simp only [cons_append, map_cons, cons.injEq, true_and, ih ht, true_implies]
        grind
    · rw [cons_append, cons_append, exactPieces_ne hc, map_cons, cons_append, cons.injEq, ih ht]
      simp [hc]

theorem read_eq_exact_end :
    readPlaceholders none (seg.map .written) = exactPieces 0 seg ↔ openBrace ∉ seg := by
  rw [exactPieces_of_not_mem hs]
  induction seg with
  | nil => simp [readPlaceholders]
  | cons c seg ih =>
    obtain ⟨-, ht⟩ := not_or.mp (mem_cons.not.mp hs)
    rw [map_cons, readPlaceholders]
    by_cases hc : c = openBrace
    · subst hc
      have hr := readPlaceholders_append [] ht []
      rw [append_nil] at hr
      rw [if_pos rfl, hr, nil_append, map_nil, readPlaceholders, placeholderPieces]
      refine iff_of_false (fun he => ?_) (by simp)
      split at he <;> simp at he
    · simp [hc, ih ht, Ne.symm hc]

theorem read_eq_exact :
    readPlaceholders none ((seg ++ closeBrace :: rest).map .written) =
        exactPieces 0 (seg ++ closeBrace :: rest) ↔
      NamedOnce seg ∧ readPlaceholders none (rest.map .written) = exactPieces 0 rest := by
  induction seg with
  | nil =>
    have hc : closeBrace ≠ openBrace := by decide
    simp [NamedOnce, readPlaceholders, exactPieces_ne hc, hc]
  | cons c seg ih =>
    obtain ⟨-, ht⟩ := not_or.mp (mem_cons.not.mp hs)
    rw [NamedOnce, forall_eq_append]
    by_cases hc : c = openBrace
    · subst hc
      rw [exactPieces_brace ht, cons_append, map_cons, readPlaceholders, if_pos rfl,
        readPlaceholders_append [] ht, nil_append, map_cons, readPlaceholders, if_pos rfl,
        placeholderPieces]
      by_cases hp : isPlaceholder seg = true
      · rw [if_pos hp]
        by_cases ho : openBrace ∈ seg
        · simp [ho, hp]
        · simp only [ho, hp, cons_append, nil_append]
          grind
      · rw [if_neg hp, if_neg fun h => hp h.2, cons_append, map_cons, cons_append, cons.injEq,
          map_byte_eq_iff ht]
        grind
    · rw [cons_append, exactPieces_ne hc, map_cons, readPlaceholders, if_neg hc, cons.injEq, ih ht]
      simp [hc, Ne.symm hc, NamedOnce]

end Closed

/-- The placeholders of a text, and nothing else in it, are replaced for every request, exactly if
its braces match. -/
theorem resolve_eq_exact_iff (text : Bytes) :
    (∀ value, resolveCaddyPlaceholders value text = fill value (exactPieces 0 text)) ↔
      BracesMatch text := by
  simp only [resolveCaddyPlaceholders_eq_fill]
  rw [forall_fill_eq_iff]
  obtain ⟨seg, segs, hsp, rfl, hs, hx⟩ := exists_splitOn_eq closeBrace text
  have hb : BracesMatch (seg ++ rooted closeBrace segs) ↔
      (∀ x ∈ (seg :: segs).dropLast, NamedOnce x) ∧
        ∀ x ∈ (seg :: segs).getLast?, openBrace ∉ x := by
    rw [← hsp]
    exact ⟨fun h => ⟨h.1, h.2⟩, fun h => ⟨h.1, h.2⟩⟩
  rw [hb]
  clear hb hsp
  induction segs generalizing seg with
  | nil => simpa using read_eq_exact_end hs
  | cons next segs ih =>
    have hi := ih next (hx next mem_cons_self) (forall_mem_cons.mp hx).2
    rw [rooted_cons, cons_append, read_eq_exact hs, and_congr_right fun _ => hi]
    simp [and_assoc, dropLast_cons_of_ne_nil]

/-- A JSON text keeps the placeholder in it, and an opening brace at the end is lost. -/
theorem json_host_kept :
    (resolveCaddyPlaceholders (fun _ => ascii "a.test") (ascii "\x7b\"h\":\"\x7bhost\x7d\"\x7d") =
      ascii "\x7b\"h\":\"\x7bhost\x7d\"\x7d" ∧
    fill (fun _ => ascii "a.test") (exactPieces 0 (ascii "\x7b\"h\":\"\x7bhost\x7d\"\x7d")) =
      ascii "\x7b\"h\":\"a.test\"\x7d") ∧
    resolveCaddyPlaceholders (fun _ => ascii "a.test") (ascii "to \x7bhost") = ascii "to a.test" ∧
    fill (fun _ => ascii "a.test") (exactPieces 0 (ascii "to \x7bhost")) = ascii "to \x7bhost" := by
  decide

end Pingclair.Substitution
