import Mathlib.Data.List.AList

/-!
# Tables that are written one entry after another

What a table shows under one key depends on the writes with that key alone, in their order.
`group` is the table of the items of a list under their keys.
-/

namespace KeyedFold

variable {τ ω ρ α : Type*}

/-- A view that only some writes touch is what those writes make of it. -/
theorem view_foldl (view : τ → ρ) {step : τ → ω → τ} (touches : ω → Bool) (write : ρ → ω → ρ)
    (hst : ∀ t w, view (step t w) = if touches w then write (view t) w else view t)
    (writes : List ω) (t : τ) :
    view (writes.foldl step t) = (writes.filter touches).foldl write (view t) := by
  induction writes generalizing t with
  | nil => rfl
  | cons w writes ih =>
    rw [List.foldl_cons, ih, hst, List.filter_cons]
    cases touches w <;> simp

theorem foldl_replace (f : ω → α) (writes : List ω) (start : Option α) :
    writes.foldl (fun _ w => some (f w)) start = (writes.getLast?.map f).or start := by
  induction writes generalizing start with
  | nil => rfl
  | cons w writes ih =>
    rw [List.foldl_cons, ih]
    cases writes with
    | nil => rfl
    | cons v writes => simp [List.getLast?_cons]

theorem foldl_merge_of_getLast (f : ω → Option α) {writes : List ω} {w : ω} {a : α}
    (hla : writes.getLast? = some w) (hw : f w = some a) (start : Option α) :
    writes.foldl (fun row w => (f w).or row) start = some a := by
  obtain ⟨before, rfl⟩ := List.getLast?_eq_some_iff.mp hla
  simp [hw]

def orElse : List α → List α → List α
  | [], second => second
  | a :: first, _ => a :: first

@[simp] theorem nil_orElse (second : List α) : orElse [] second = second := rfl

theorem getLast?_orElse (first second : List α) :
    (orElse first second).getLast? = first.getLast?.or second.getLast? := by
  cases first with
  | nil => rfl
  | cons a first => simp [orElse, List.getLast?_cons]

section Group

variable {κ : Type*} [DecidableEq κ] (key : α → κ)

def push (table : AList fun _ : κ => List α) (item : α) : AList fun _ : κ => List α :=
  table.insert (key item) ((table.lookup (key item)).getD [] ++ [item])

def group (items : List α) : AList fun _ : κ => List α := items.foldl (push key) ∅

variable {key}

theorem lookup_push (table : AList fun _ : κ => List α) (item : α) (k : κ) :
    (push key table item).lookup k = if key item = k then
      some ((table.lookup k).getD [] ++ [item]) else table.lookup k := by
  rw [push]
  split
  · next heq => rw [← heq, AList.lookup_insert]
  · next hne => exact AList.lookup_insert_ne (Ne.symm hne)

theorem lookup_group (its : List α) (k : κ) :
    (group key its).lookup k =
      if its.filter (key · = k) = [] then none else some (its.filter (key · = k)) := by
  have hpu : ∀ (its : List α) (start : Option (List α)),
      its.foldl (fun row i => some (row.getD [] ++ [i])) start =
        if its = [] then start else some (start.getD [] ++ its) := by
    intro its
    induction its with
    | nil => intro start; rfl
    | cons i its ih =>
      intro start
      rw [List.foldl_cons, ih]
      split
      · next hni => simp [hni]
      · simp
  have hst : ∀ (table : AList fun _ : κ => List α) (i : α),
      (push key table i).lookup k = if decide (key i = k) then
        some ((table.lookup k).getD [] ++ [i]) else table.lookup k := by
    intro table i
    rw [lookup_push]
    simp
  have hview := view_foldl (fun table : AList fun _ : κ => List α => table.lookup k)
    (fun i => decide (key i = k)) (fun row i => some (row.getD [] ++ [i])) hst its ∅
  rw [group, hview, hpu]
  simp

theorem forall_group {its : List α} {P : List α → Prop} :
    (∀ row ∈ (group key its).entries.map Sigma.snd, P row) ↔
      ∀ item ∈ its, P (its.filter (key · = key item)) := by
  constructor
  · intro h item hit
    have hne : its.filter (key · = key item) ≠ [] := by
      intro hni
      have hmem : item ∈ its.filter (key · = key item) := by simp [hit]
      rw [hni] at hmem
      exact List.not_mem_nil hmem
    have hrow := AList.mem_lookup_iff.mp (Option.mem_def.mpr
      ((lookup_group its (key item)).trans (if_neg hne)))
    exact h _ (List.mem_map_of_mem hrow)
  · intro h row hrow
    obtain ⟨⟨k, its'⟩, he, rfl⟩ := List.mem_map.mp hrow
    have hlk := Option.mem_def.mp (AList.mem_lookup_iff.mpr he)
    rw [lookup_group] at hlk
    split at hlk
    · simp at hlk
    · next hne =>
      obtain rfl := Option.some.inj hlk
      obtain ⟨item, hit⟩ := List.exists_mem_of_ne_nil _ hne
      obtain ⟨hmem, hk⟩ := List.mem_filter.mp hit
      obtain rfl := of_decide_eq_true hk
      exact h item hmem

end Group

end KeyedFold
