import Mathlib.Data.List.Basic

/-!
# Sorted association lists

A map as the list of its entries, sorted by key, each key once. `upsert` gives a key a new
value, computed from the one it had; replacing a value and adding one only where there is
none are two cases of it.
-/

namespace SortedMap

open List Option

variable {κ ν : Type*} [DecidableEq κ] [LT κ] [DecidableLT κ]

/-- Gives `key` the value that `f` makes of the one it had. -/
def upsert (key : κ) (f : Option ν → ν) : List (κ × ν) → List (κ × ν)
  | [] => [(key, f none)]
  | (k, v) :: rest =>
    if key = k then (k, f (some v)) :: rest
    else if key < k then (key, f none) :: (k, v) :: rest
    else (k, v) :: upsert key f rest

def insert (key : κ) (value : ν) : List (κ × ν) → List (κ × ν) := upsert key fun _ => value

def orInsert (key : κ) (value : ν) : List (κ × ν) → List (κ × ν) := upsert key (·.getD value)

variable {key : κ} {f : Option ν → ν} {entries : List (κ × ν)} {entry : κ × ν}

theorem mem_upsert (h : entry ∈ upsert key f entries) :
    entry ∈ entries ∨ entry = (key, f none) ∨
      ∃ v, (key, v) ∈ entries ∧ entry = (key, f (some v)) := by
  induction entries with
  | nil =>
    simp only [upsert, mem_singleton] at h
    exact .inr (.inl h)
  | cons e entries ih =>
    obtain ⟨k, v⟩ := e
    simp only [upsert] at h
    split_ifs at h with hkey hlt
    · subst hkey
      rcases mem_cons.mp h with h | h
      · exact .inr (.inr ⟨v, mem_cons_self, h⟩)
      · exact .inl (mem_cons_of_mem _ h)
    · rcases mem_cons.mp h with h | h
      · exact .inr (.inl h)
      · exact .inl h
    · rcases mem_cons.mp h with h | h
      · exact .inl (h ▸ mem_cons_self)
      · rcases ih h with h | h | ⟨v, hv, h⟩
        · exact .inl (mem_cons_of_mem _ h)
        · exact .inr (.inl h)
        · exact .inr (.inr ⟨v, mem_cons_of_mem _ hv, h⟩)

theorem exists_mem_upsert (key : κ) (f : Option ν → ν) (entries : List (κ × ν)) :
    ∃ v, (key, v) ∈ upsert key f entries := by
  induction entries with
  | nil => exact ⟨f none, by simp [upsert]⟩
  | cons e entries ih =>
    obtain ⟨k, v⟩ := e
    obtain ⟨v', hv'⟩ := ih
    simp only [upsert]
    split_ifs with hk hlt
    · exact ⟨f (some v), by simp [hk]⟩
    · exact ⟨f none, by simp⟩
    · exact ⟨v', mem_cons_of_mem _ hv'⟩

theorem exists_mem_upsert_of_mem (key : κ) (f : Option ν → ν) (h : entry ∈ entries) :
    ∃ v, (entry.1, v) ∈ upsert key f entries := by
  induction entries with
  | nil => exact absurd h not_mem_nil
  | cons e entries ih =>
    obtain ⟨k, v⟩ := e
    simp only [upsert]
    rcases mem_cons.mp h with rfl | h
    · split_ifs with hkey hlt
      · exact ⟨f (some v), by simp⟩
      · exact ⟨v, by simp⟩
      · exact ⟨v, by simp⟩
    · obtain ⟨v', hv'⟩ := ih h
      split_ifs with hkey hlt
      · exact ⟨entry.2, mem_cons_of_mem _ h⟩
      · exact ⟨entry.2, mem_cons_of_mem _ (mem_cons_of_mem _ h)⟩
      · exact ⟨v', mem_cons_of_mem _ hv'⟩

def find? (key : κ) (entries : List (κ × ν)) : Option ν :=
  (entries.find? (·.1 = key)).map Prod.snd

omit [LT κ] [DecidableLT κ] in
theorem find?_cons (key : κ) (entry : κ × ν) (entries : List (κ × ν)) :
    find? key (entry :: entries) = if entry.1 = key then some entry.2 else find? key entries := by
  rw [find?, List.find?_cons]
  split <;> split <;> simp_all [find?]

theorem find?_insert (key : κ) (value : ν) (entries : List (κ × ν)) (o : κ) :
    find? o (insert key value entries) =
      if key = o then some value else find? o entries := by
  induction entries with
  | nil => exact find?_cons o (key, value) []
  | cons e entries ih =>
    obtain ⟨k, v⟩ := e
    by_cases hk : key = k
    · subst hk
      rw [insert, upsert, if_pos rfl, find?_cons, find?_cons]
      split <;> rfl
    · rw [insert, upsert, if_neg hk]
      split
      · rw [find?_cons]
      · change find? o ((k, v) :: insert key value entries) = _
        rw [find?_cons, find?_cons, ih]
        by_cases ho : k = o
        · rw [if_pos ho, if_pos ho, if_neg (ho ▸ hk)]
        · rw [if_neg ho, if_neg ho]

def insertAll (pairs : List (κ × ν)) (entries : List (κ × ν)) : List (κ × ν) :=
  pairs.foldl (fun entries pair => insert pair.1 pair.2 entries) entries

theorem find?_insertAll_of_not_mem {pairs : List (κ × ν)} (h : key ∉ pairs.map Prod.fst)
    (entries : List (κ × ν)) : find? key (insertAll pairs entries) = find? key entries := by
  induction pairs generalizing entries with
  | nil => rfl
  | cons pair pairs ih =>
    rw [map_cons, mem_cons, not_or] at h
    change find? key (insertAll pairs _) = _
    rw [ih h.2, find?_insert, if_neg (Ne.symm h.1)]

theorem insertAll_append (front back entries : List (κ × ν)) :
    insertAll (front ++ back) entries = insertAll back (insertAll front entries) :=
  foldl_append

/-- A key has the value that was inserted last. -/
theorem find?_insertAll_split (front back : List (κ × ν)) {pairs : List (κ × ν)} {value : ν}
    (hpairs : pairs = front ++ (key, value) :: back) (h : key ∉ back.map Prod.fst)
    (entries : List (κ × ν)) : find? key (insertAll pairs entries) = some value := by
  rw [hpairs, insertAll_append, insertAll]
  change find? key (insertAll back _) = _
  rw [find?_insertAll_of_not_mem h, find?_insert, if_pos rfl]

end SortedMap
