import Pingclair.Lib.ByteText

/-!
# Three-symbol escapes

An escape is a mark followed by two digits that together stand for one symbol:
`%41` for `A`. `Escape.decode` replaces every escape of a text in one pass from the
left; what it produces is never looked at again.
-/

/-- A family of escapes: the mark, and the symbol two digits stand for. A mark is
never a digit, so two escapes of one text cannot overlap. -/
structure Escape (α : Type*) where
  mark : α
  value : α → α → Option α
  value_mark_left : ∀ y, value mark y = none
  value_mark_right : ∀ x, value x mark = none

namespace Escape

open List Option

variable {α : Type*} [DecidableEq α] (e : Escape α)

def read : List α → Option α
  | m :: x :: y :: _ => if m = e.mark then e.value x y else none
  | _ => none

/-- The next symbol a text spells, plainly or as an escape, and the text after it. -/
def next : List α → Option (α × List α)
  | [] => none
  | a :: rest =>
    match e.read (a :: rest) with
    | some v => some (v, rest.drop 2)
    | none => some (a, rest)

def decode : List α → List α
  | [] => []
  | a :: rest =>
    match e.read (a :: rest) with
    | some v => v :: decode (rest.drop 2)
    | none => a :: decode rest
termination_by s => s.length
decreasing_by all_goals simp; try omega

def occurs : List α → Bool
  | [] => false
  | a :: rest => (e.read (a :: rest)).isSome || occurs rest

/-- A plain mark is followed by two symbols, each plain or escaped, that are the digits
of an escape. -/
def spelled : List α → Bool
  | [] => false
  | a :: rest =>
    match e.read (a :: rest) with
    | some _ => spelled (rest.drop 2)
    | none =>
      (decide (a = e.mark) && match e.next rest with
        | none => false
        | some (x, rest') =>
          match e.next rest' with
          | none => false
          | some (y, _) => (e.value x y).isSome) || spelled rest
termination_by s => s.length
decreasing_by all_goals simp; try omega

/-- A separator that is neither the mark nor a digit: it lies in no escape. -/
structure Cuts (sep : α) : Prop where
  left : ∀ y, e.value sep y = none
  right : ∀ x, e.value x sep = none
  ne_mark : sep ≠ e.mark

variable {e} {a sep v : α} {s t : List α}

@[simp] theorem read_nil : e.read [] = none := rfl

theorem read_eq_some (h : e.read s = some v) :
    ∃ x y rest, s = e.mark :: x :: y :: rest ∧ e.value x y = some v ∧ x ≠ e.mark ∧ y ≠ e.mark := by
  match s, h with
  | m :: x :: y :: rest, h =>
    simp only [read] at h
    split at h
    · next hm =>
      refine ⟨x, y, rest, by rw [hm], h, ?_, ?_⟩
      · rintro rfl
        simp [e.value_mark_left] at h
      · rintro rfl
        simp [e.value_mark_right] at h
    · simp at h

theorem read_cons_of_ne (h : a ≠ e.mark) : e.read (a :: s) = none := by
  by_contra hne
  obtain ⟨v, hv⟩ := ne_none_iff_exists'.mp hne
  obtain ⟨x, y, rest, heq, -⟩ := read_eq_some hv
  exact h (List.cons.inj heq).1

theorem read_append_cons (h : e.Cuts sep) : e.read (s ++ sep :: t) = e.read s := by
  match s with
  | [] => rw [nil_append, read_cons_of_ne h.ne_mark, read_nil]
  | [m] =>
    cases t with
    | nil => rfl
    | cons b t => simp [read, h.left]
  | [m, x] => simp [read, h.right]
  | m :: x :: y :: s => rfl

@[simp] theorem decode_nil : e.decode [] = [] := by rw [decode]

theorem decode_cons_none (h : e.read (a :: s) = none) : e.decode (a :: s) = a :: e.decode s := by
  rw [decode, h]

theorem decode_cons_some (h : e.read (a :: s) = some v) :
    e.decode (a :: s) = v :: e.decode (s.drop 2) := by
  rw [decode, h]

theorem decode_append_of_not_mem (hs : e.mark ∉ s) : e.decode (s ++ t) = s ++ e.decode t := by
  induction s with
  | nil => rfl
  | cons a s ih =>
    simp only [mem_cons, not_or] at hs
    rw [cons_append, decode_cons_none (read_cons_of_ne (Ne.symm hs.1)), ih hs.2, cons_append]

theorem occurs_append_of_not_mem (hs : e.mark ∉ s) : e.occurs (s ++ t) = e.occurs t := by
  induction s with
  | nil => rfl
  | cons a s ih =>
    simp only [mem_cons, not_or] at hs
    rw [cons_append, occurs, read_cons_of_ne (Ne.symm hs.1), ih hs.2]
    rfl

theorem not_mem_decode (hvalue : ∀ x y, e.value x y ≠ some a) (hs : a ∉ s) : a ∉ e.decode s := by
  induction s using decode.induct e with
  | case1 => simp
  | case2 b s v hv ih =>
    obtain ⟨x, y, rest, -, hva, -⟩ := read_eq_some hv
    have hav : a ≠ v := fun h => hvalue x y (h ▸ hva)
    have hdr : a ∉ s.drop 2 := fun h => hs (mem_cons_of_mem _ (mem_of_mem_drop h))
    rw [decode_cons_some hv, mem_cons, not_or]
    exact ⟨hav, ih hdr⟩
  | case3 b s hv ih =>
    simp only [mem_cons, not_or] at hs
    rw [decode_cons_none hv, mem_cons, not_or]
    exact ⟨hs.1, ih hs.2⟩

theorem decode_ne_nil (h : s ≠ []) : e.decode s ≠ [] := by
  obtain ⟨a, s, rfl⟩ := exists_cons_of_ne_nil h
  cases hr : e.read (a :: s) with
  | none => simp [decode_cons_none hr]
  | some v => simp [decode_cons_some hr]

/-- Decoding a text is decoding the symbol it spells first, and then the rest. -/
theorem decode_eq_next : e.decode s = match e.next s with
    | none => []
    | some (x, rest) => x :: e.decode rest := by
  cases s with
  | nil => simp [next]
  | cons a s =>
    cases hr : e.read (a :: s) with
    | none => simp [next, hr, decode_cons_none hr]
    | some v => simp [next, hr, decode_cons_some hr]

theorem decode_append_cons (h : e.Cuts sep) (s t : List α) :
    e.decode (s ++ sep :: t) = e.decode s ++ sep :: e.decode t := by
  have hrd : ∀ s, e.read (s ++ sep :: t) = e.read s := fun s => read_append_cons h
  induction s using decode.induct e with
  | case1 => simp [decode_cons_none (read_cons_of_ne h.ne_mark)]
  | case2 a s v hv ih =>
    obtain ⟨x, y, rest, heq, -⟩ := read_eq_some hv
    obtain ⟨-, rfl⟩ := List.cons.inj heq
    have hv' := (hrd (a :: x :: y :: rest)).trans hv
    simp only [cons_append] at hv' ⊢
    rw [decode_cons_some hv', decode_cons_some hv]
    simpa using ih
  | case3 a s hv ih =>
    have hv' := (hrd (a :: s)).trans hv
    simp only [cons_append] at hv' ⊢
    rw [decode_cons_none hv', decode_cons_none hv, ih, cons_append]

theorem decode_append_rooted (h : e.Cuts sep) (s : List α) (segs : List (List α)) :
    e.decode (s ++ ByteText.rooted sep segs) =
      e.decode s ++ ByteText.rooted sep (segs.map e.decode) := by
  induction segs generalizing s with
  | nil => simp
  | cons seg segs ih =>
    rw [ByteText.rooted_cons, cons_append, decode_append_cons h, ih]
    simp

theorem decode_rooted (h : e.Cuts sep) (segs : List (List α)) :
    e.decode (ByteText.rooted sep segs) = ByteText.rooted sep (segs.map e.decode) := by
  simpa using decode_append_rooted h [] segs

theorem length_decode_le : (e.decode s).length ≤ s.length := by
  induction s using decode.induct e with
  | case1 => simp
  | case2 a s v hv ih =>
    simp only [length_drop] at ih
    simp only [decode_cons_some hv, length_cons]
    omega
  | case3 a s hv ih => simp [decode_cons_none hv, ih]

theorem decode_of_not_occurs (h : e.occurs s = false) : e.decode s = s := by
  induction s with
  | nil => simp
  | cons a s ih =>
    simp only [occurs, Bool.or_eq_false_iff, isSome_eq_false_iff, isNone_iff_eq_none] at h
    rw [decode_cons_none h.1, ih h.2]

theorem length_decode_lt (h : e.occurs s = true) : (e.decode s).length < s.length := by
  induction s with
  | nil => simp [occurs] at h
  | cons a s ih =>
    cases hv : e.read (a :: s) with
    | none =>
      simp only [occurs, hv, isSome_none, Bool.false_or] at h
      simpa [decode_cons_none hv] using ih h
    | some v =>
      obtain ⟨x, y, rest, heq, -⟩ := read_eq_some hv
      obtain ⟨-, rfl⟩ := List.cons.inj heq
      have := length_decode_le (e := e) (s := rest)
      simp only [decode_cons_some hv, drop_succ_cons, drop_zero, length_cons]
      omega

theorem occurs_append_cons (h : e.Cuts sep) (s t : List α) :
    e.occurs (s ++ sep :: t) = (e.occurs s || e.occurs t) := by
  induction s with
  | nil => simp [occurs, read_cons_of_ne h.ne_mark]
  | cons a s ih =>
    have hrd : e.read (a :: (s ++ sep :: t)) = e.read (a :: s) := by
      rw [← cons_append]
      exact read_append_cons h
    simp [occurs, hrd, ih, Bool.or_assoc]

theorem occurs_append_rooted (h : e.Cuts sep) (s : List α) (segs : List (List α)) :
    e.occurs (s ++ ByteText.rooted sep segs) = (e.occurs s || segs.any e.occurs) := by
  induction segs generalizing s with
  | nil => simp
  | cons seg segs ih =>
    rw [ByteText.rooted_cons, cons_append, occurs_append_cons h, ih]
    simp

theorem occurs_rooted (h : e.Cuts sep) (segs : List (List α)) :
    e.occurs (ByteText.rooted sep segs) = segs.any e.occurs := by
  simpa [occurs] using occurs_append_rooted h [] segs

/-- The text a plain mark precedes spells two digits exactly when its decoding starts
with them. -/
private theorem read_mark_cons_decode :
    (e.read (e.mark :: e.decode s)).isSome = match e.next s with
      | none => false
      | some (x, rest') =>
        match e.next rest' with
        | none => false
        | some (y, _) => (e.value x y).isSome := by
  rw [decode_eq_next]
  cases e.next s with
  | none => rfl
  | some p =>
    obtain ⟨x, rest⟩ := p
    simp only
    rw [decode_eq_next]
    cases e.next rest with
    | none => rfl
    | some q => simp [read]

/-- When no escape stands for the mark itself, the decoded text holds an escape exactly
when the original spells one. -/
theorem occurs_decode (hmk : ∀ x y, e.value x y ≠ some e.mark) :
    e.occurs (e.decode s) = e.spelled s := by
  induction s using decode.induct e with
  | case1 => simp [occurs, spelled]
  | case2 a s v hv ih =>
    obtain ⟨x, y, rest, -, hva, -⟩ := read_eq_some hv
    have hvm : v ≠ e.mark := fun h => hmk x y (h ▸ hva)
    rw [decode_cons_some hv, spelled, hv, occurs, read_cons_of_ne hvm, ih]
    simp
  | case3 a s hv ih =>
    rw [decode_cons_none hv, spelled, hv, occurs, ih]
    by_cases ha : a = e.mark
    · subst ha
      rw [read_mark_cons_decode]
      simp
    · simp [read_cons_of_ne ha, ha]

/-- A text before another has its symbols decoded, or some of them in an escape that ends in the
other. Either way no more come out of it than go in, of symbols that the mark is among. -/
theorem countP_decode_append_le {p : α → Bool} (hmk : p e.mark = true) (s t : List α) :
    (e.decode (s ++ t)).countP p ≤ s.countP p + (e.decode t).countP p := by
  match s with
  | [] => simp
  | a :: s =>
    rw [cons_append]
    cases hrd : e.read (a :: (s ++ t)) with
    | none =>
      have ih := countP_decode_append_le hmk s t
      rw [decode_cons_none hrd, countP_cons, countP_cons]
      omega
    | some v =>
      obtain ⟨x, y, rest, heq, hv, hx, hy⟩ := read_eq_some hrd
      obtain ⟨rfl, hrest⟩ := List.cons.inj heq
      have hone : (if p v = true then 1 else 0) ≤ 1 := by split <;> omega
      rw [decode_cons_some hrd, countP_cons, countP_cons, if_pos hmk]
      match s, hrest with
      | [], hrest =>
        -- both digits are of the other text
        rw [nil_append] at hrest
        rw [nil_append, hrest, decode_cons_none (read_cons_of_ne hx),
          decode_cons_none (read_cons_of_ne hy), countP_cons, countP_cons]
        simp only [drop_succ_cons, drop_zero]
        omega
      | [x'], hrest =>
        obtain ⟨rfl, htl⟩ := List.cons.inj hrest
        have htl : t = y :: rest := htl
        rw [htl, decode_cons_none (read_cons_of_ne hy)]
        simp only [cons_append, nil_append, drop_succ_cons, drop_zero, countP_cons, countP_nil]
        omega
      | x' :: y' :: s, hrest =>
        have ih := countP_decode_append_le hmk s t
        simp only [cons_append, drop_succ_cons, drop_zero, countP_cons]
        omega
termination_by s.length

theorem count_le_count_decode (h : e.Cuts sep) (s : List α) :
    s.count sep ≤ (e.decode s).count sep := by
  induction s using decode.induct e with
  | case1 => simp
  | case2 a s v hv ih =>
    obtain ⟨x, y, rest, heq, hvalue, -⟩ := read_eq_some hv
    obtain ⟨rfl, rfl⟩ := List.cons.inj heq
    have hx : x ≠ sep := fun hsep => by simp [hsep, h.left] at hvalue
    have hy : y ≠ sep := fun hsep => by simp [hsep, h.right] at hvalue
    rw [decode_cons_some hv, count_cons_of_ne h.ne_mark.symm, count_cons_of_ne hx,
      count_cons_of_ne hy]
    exact ih.trans (count_le_count_cons ..)
  | case3 a s hv ih =>
    rw [decode_cons_none hv, count_cons, count_cons]
    omega

end Escape
