import Mathlib.Data.List.Forall2
import Mathlib.Data.List.Induction

/-!
# Fallible steps

Inversion and invariant rules for functions that answer in `Except`: what a run that
succeeded must have done, one step at a time.
-/

namespace Fallible

open List Option

universe u

variable {ε α β σ : Type u}

def okOr (e : ε) : Option α → Except ε α
  | some a => .ok a
  | none => .error e

theorem okOr_eq_ok {e : ε} {o : Option α} {a : α} : okOr e o = .ok a ↔ o = some a := by
  cases o <;> simp [okOr]

variable {f : α → Except ε β} {l : List α} {bs : List β}

theorem bind_eq_ok {x : Except ε α} {b : β} : x >>= f = .ok b ↔ ∃ a, x = .ok a ∧ f a = .ok b := by
  cases x with
  | error e => simp [bind, Except.bind]
  | ok a => simp [bind, Except.bind]

theorem map_eq_ok {x : Except ε α} {f : α → β} {b : β} :
    x.map f = .ok b ↔ ∃ a, x = .ok a ∧ f a = b := by
  cases x with
  | error e => simp [Except.map]
  | ok a => simp [Except.map]

theorem foldlM_concat_eq_ok {f : σ → α → Except ε σ} {s t : σ} {a : α} :
    (l ++ [a]).foldlM f s = .ok t ↔ ∃ u, l.foldlM f s = .ok u ∧ f u a = .ok t := by
  rw [foldlM_append, bind_eq_ok]
  simp

/-- What each step keeps of the items done so far holds of all items at the end. -/
theorem foldlM_invariant {f : σ → α → Except ε σ} {I : List α → σ → Prop}
    (hsp : ∀ {done s a t}, I done s → f s a = .ok t → I (done ++ [a]) t) {s t : σ} (hst : I [] s)
    (h : l.foldlM f s = .ok t) : I l t := by
  induction l using List.reverseRecOn generalizing t with
  | nil =>
    cases h
    exact hst
  | append_singleton l a ih =>
    obtain ⟨u, hu, hla⟩ := foldlM_concat_eq_ok.mp h
    exact hsp (ih hu) hla

theorem mapM_eq_ok : l.mapM f = .ok bs ↔ List.Forall₂ (fun a b => f a = .ok b) l bs := by
  induction l generalizing bs with
  | nil =>
    constructor
    · intro h
      cases h
      exact .nil
    · intro h
      cases h
      rfl
  | cons a l ih =>
    rw [mapM_cons, bind_eq_ok]
    constructor
    · rintro ⟨b, hb, h⟩
      obtain ⟨rest, hrest, h⟩ := bind_eq_ok.mp h
      cases h
      exact .cons hb (ih.mp hrest)
    · intro h
      cases h with
      | cons hb hrest => exact ⟨_, hb, bind_eq_ok.mpr ⟨_, ih.mpr hrest, rfl⟩⟩

theorem exists_of_forall₂ {α β : Type*} {R : α → β → Prop} {l : List α} {bs : List β} {a : α}
    (h : Forall₂ R l bs) (ha : a ∈ l) : ∃ b ∈ bs, R a b := by
  induction h with
  | nil => exact absurd ha not_mem_nil
  | cons hab _ ih =>
    rcases mem_cons.mp ha with rfl | ha
    · exact ⟨_, mem_cons_self, hab⟩
    · obtain ⟨b, hb, hres⟩ := ih ha
      exact ⟨b, mem_cons_of_mem _ hb, hres⟩

theorem exists_of_mem_items {a : α} (h : l.mapM f = .ok bs) (ha : a ∈ l) : ∃ b ∈ bs, f a = .ok b :=
  exists_of_forall₂ (mapM_eq_ok.mp h) ha

theorem exists_of_mem_mapM {b : β} (h : l.mapM f = .ok bs) (hb : b ∈ bs) : ∃ a ∈ l, f a = .ok b :=
  exists_of_forall₂ (Forall₂.flip (R := fun b a => f a = .ok b) (mapM_eq_ok.mp h)) hb

theorem mapM_mono {f' : α → Except ε β} (hf : ∀ a b, f a = .ok b → f' a = .ok b)
    (h : l.mapM f = .ok bs) : l.mapM f' = .ok bs :=
  mapM_eq_ok.mpr ((mapM_eq_ok.mp h).imp hf)

theorem map_of_mapM {γ : Type*} {g : β → γ} {k : α → γ} (h : l.mapM f = .ok bs)
    (hgk : ∀ a b, f a = .ok b → g b = k a) : bs.map g = l.map k := by
  have ha := mapM_eq_ok.mp h
  clear h
  induction ha with
  | nil => rfl
  | cons hab _ ih => rw [map_cons, map_cons, hgk _ _ hab, ih]

end Fallible
