import Pingclair.Lib.ByteText

/-!
# Templates

A template is text with holes in it. Two templates that read the same however their holes are
filled are the same template.

Text that is made of written bytes and of data is a list of atoms. A reader that looks for syntax
among the written atoms only takes data for what it is.
-/

namespace Templates

open ByteText

/-- A byte of the text, or a hole with a label. -/
inductive Piece (α : Type*)
  | byte (b : UInt8)
  | hole (a : α)
  deriving DecidableEq

/-- A byte that somebody wrote, or data that was put between such bytes. -/
inductive Atom
  | written (b : UInt8)
  | data (text : Bytes)
  deriving DecidableEq

def Atom.text : Atom → Bytes
  | written b => [b]
  | data text => text

def plain (atoms : List Atom) : Bytes := atoms.flatMap Atom.text

variable {α : Type*}

namespace Piece

def text (value : α → Bytes) : Piece α → Bytes
  | byte b => [b]
  | hole a => value a

end Piece

def fill (value : α → Bytes) (pieces : List (Piece α)) : Bytes := pieces.flatMap (Piece.text value)

variable (value : α → Bytes)

@[simp] theorem fill_nil : fill value [] = [] := rfl

@[simp] theorem fill_cons (p : Piece α) (pieces : List (Piece α)) :
    fill value (p :: pieces) = p.text value ++ fill value pieces := rfl

theorem fill_append (pieces others : List (Piece α)) :
    fill value (pieces ++ others) = fill value pieces ++ fill value others :=
  List.flatMap_append

theorem fill_map_byte (text : Bytes) : fill value (text.map Piece.byte) = text := by
  induction text with
  | nil => rfl
  | cons b text ih => rw [List.map_cons, fill_cons, ih]; rfl

variable {ps qs : List (Piece α)}

theorem head_eq_of_forall_fill_eq [DecidableEq α] {p q : Piece α}
    (h : ∀ value, fill value (p :: ps) = fill value (q :: qs)) : p = q := by
  cases p with
  | byte b =>
    cases q with
    | byte c =>
      have hbs := h fun _ => []
      simp only [fill_cons, Piece.text, List.cons_append, List.cons.injEq] at hbs
      rw [hbs.1]
    | hole a =>
      have hbs := h fun _ => [b + 1]
      simp only [fill_cons, Piece.text, List.cons_append, List.cons.injEq] at hbs
      exact absurd hbs.1 (by simp)
  | hole a =>
    cases q with
    | byte c =>
      have hbs := h fun _ => [c + 1]
      simp only [fill_cons, Piece.text, List.cons_append, List.cons.injEq] at hbs
      exact absurd hbs.1 (by simp)
    | hole a' =>
      by_contra hne
      have hne : a' ≠ a := fun heq => hne (heq ▸ rfl)
      have hbs := h fun x => if x = a then [0] else [1]
      simp only [fill_cons, Piece.text, if_pos, if_neg hne, List.cons_append,
        List.cons.injEq] at hbs
      exact absurd hbs.1 (by decide)

theorem fill_cons_ne_nil (p : Piece α) (pieces : List (Piece α)) :
    fill (fun _ => [0]) (p :: pieces) ≠ [] := by
  cases p <;> simp [Piece.text]

theorem eq_of_forall_fill_eq [DecidableEq α] (h : ∀ value, fill value ps = fill value qs) :
    ps = qs := by
  induction ps generalizing qs with
  | nil =>
    cases qs with
    | nil => rfl
    | cons q qs => exact absurd (h fun _ => [0]).symm (fill_cons_ne_nil q qs)
  | cons p ps ih =>
    cases qs with
    | nil => exact absurd (h fun _ => [0]) (fill_cons_ne_nil p ps)
    | cons q qs =>
      obtain rfl := head_eq_of_forall_fill_eq h
      rw [ih fun value => List.append_cancel_left (h value)]

theorem forall_fill_eq_iff [DecidableEq α] : (∀ value, fill value ps = fill value qs) ↔ ps = qs :=
  ⟨eq_of_forall_fill_eq, fun h _ => h ▸ rfl⟩

end Templates
