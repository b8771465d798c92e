import Pingclair.Lib.ByteText

/-!
# JSON documents

Untyped documents, the positions in them, and functions that rewrite the strings of a document
according to their position. What a recursive walk does to a document is stated as such a function.

Numbers are left abstract. An object is the list of its entries.
-/

open ByteText List Option

inductive Json (N : Type) where
  | null
  | bool (value : Bool)
  | number (value : N)
  | string (text : Bytes)
  | array (items : List (Json N))
  | object (entries : List (Bytes × Json N))

namespace Json

variable {N : Type}

inductive Step where
  | key (name : Bytes)
  | index (i : Nat)
  deriving DecidableEq

def get? (name : Bytes) : Json N → Option (Json N)
  | .object entries => (entries.find? (·.1 = name)).map (·.2)
  | _ => none

def item? (i : Nat) : Json N → Option (Json N)
  | .array items => items[i]?
  | _ => none

def at? : List Step → Json N → Option (Json N)
  | [], document => some document
  | .key name :: path, document => (document.get? name).bind (at? path)
  | .index i :: path, document => (document.item? i).bind (at? path)

/-- A value stands at a position. -/
def At : List Step → Json N → Json N → Prop
  | [], document, value => document = value
  | .key name :: path, document, value =>
    ∃ entries inner, document = .object entries ∧ (name, inner) ∈ entries ∧ At path inner value
  | .index i :: path, document, value =>
    ∃ items inner, document = .array items ∧ items[i]? = some inner ∧ At path inner value

def Distinct (document : Json N) : Prop :=
  ∀ path entries, At path document (.object entries) → (entries.map Prod.fst).Nodup

mutual

def mapStrings (f : List Step → Bytes → Bytes) : Json N → Json N
  | .null => .null
  | .bool value => .bool value
  | .number value => .number value
  | .string text => .string (f [] text)
  | .array items => .array (mapItems f 0 items)
  | .object entries => .object (mapEntries f entries)

def mapItems (f : List Step → Bytes → Bytes) (i : Nat) : List (Json N) → List (Json N)
  | [] => []
  | item :: items => mapStrings (fun path => f (.index i :: path)) item :: mapItems f (i + 1) items

def mapEntries (f : List Step → Bytes → Bytes) : List (Bytes × Json N) → List (Bytes × Json N)
  | [] => []
  | (name, value) :: entries =>
    (name, mapStrings (fun path => f (.key name :: path)) value) :: mapEntries f entries

end

mutual

theorem mapStrings_comp (f g : List Step → Bytes → Bytes) : (doc : Json N) →
    mapStrings g (mapStrings f doc) = mapStrings (fun path text => g path (f path text)) doc
  | .null => rfl
  | .bool _ => rfl
  | .number _ => rfl
  | .string _ => rfl
  | .array i => by rw [mapStrings, mapStrings, mapStrings, mapItems_comp]
  | .object entries => by rw [mapStrings, mapStrings, mapStrings, mapEntries_comp]

theorem mapItems_comp (f g : List Step → Bytes → Bytes) (i : Nat) : (its : List (Json N)) →
    mapItems g i (mapItems f i its) = mapItems (fun path text => g path (f path text)) i its
  | [] => rfl
  | item :: its => by
    rw [mapItems, mapItems, mapItems, mapStrings_comp, mapItems_comp f g (i + 1) its]

theorem mapEntries_comp (f g : List Step → Bytes → Bytes) : (entries : List (Bytes × Json N)) →
    mapEntries g (mapEntries f entries) = mapEntries (fun path text => g path (f path text)) entries
  | [] => rfl
  | (name, value) :: entries => by
    rw [mapEntries, mapEntries, mapEntries, mapStrings_comp, mapEntries_comp f g entries]

end

variable (f : List Step → Bytes → Bytes)

theorem mapEntries_eq_map (entries : List (Bytes × Json N)) :
    mapEntries f entries = entries.map fun entry =>
      (entry.1, mapStrings (fun path => f (.key entry.1 :: path)) entry.2) := by
  induction entries with
  | nil => rfl
  | cons entry entries ih => rw [mapEntries, ih, map_cons]

theorem getElem?_mapItems (i j : Nat) (its : List (Json N)) :
    (mapItems f i its)[j]? = (its[j]?).map (mapStrings fun path => f (.index (i + j) :: path)) := by
  induction its generalizing i j with
  | nil => rfl
  | cons it its ih =>
    rw [mapItems]
    cases j with
    | zero => rfl
    | succ j => rw [List.getElem?_cons_succ, List.getElem?_cons_succ, ih, Nat.add_right_comm i 1 j,
        Nat.add_assoc]

variable {path : List Step} {text : Bytes}

variable {entries : List (Bytes × Json N)} {doc : Json N}

theorem At.of_object (h : At path (.object entries) (.string text)) :
    ∃ name inner rest, path = .key name :: rest ∧ (name, inner) ∈ entries ∧
      At rest inner (.string text) := by
  cases path with
  | nil => cases h
  | cons step rest =>
    cases step with
    | key name =>
      obtain ⟨_, inner, heq, hmem, hin⟩ := h
      cases heq
      exact ⟨name, inner, rest, rfl, hmem, hin⟩
    | index i =>
      obtain ⟨_, _, heq, _⟩ := h
      cases heq

theorem At.of_array {its : List (Json N)} (h : At path (.array its) (.string text)) :
    ∃ i inner rest, path = .index i :: rest ∧ its[i]? = some inner ∧
      At rest inner (.string text) := by
  cases path with
  | nil => cases h
  | cons step rest =>
    cases step with
    | key name =>
      obtain ⟨_, _, heq, _⟩ := h
      cases heq
    | index i =>
      obtain ⟨_, inner, heq, hget, hin⟩ := h
      cases heq
      exact ⟨i, inner, rest, rfl, hget, hin⟩

theorem find?_of_nodup (h : (entries.map Prod.fst).Nodup) {name : Bytes} {value : Json N}
    (hmem : (name, value) ∈ entries) : entries.find? (·.1 = name) = some (name, value) := by
  obtain ⟨f, b, rfl⟩ := append_of_mem hmem
  rw [map_append, nodup_append] at h
  refine List.find?_eq_some_iff_append.mpr ⟨by simp, f, b, rfl, fun entry he => ?_⟩
  simpa using h.2.2 _ (mem_map_of_mem he) name (by simp)

theorem at?_of_at {value : Json N} (hdis : doc.Distinct) (h : At path doc value) :
    at? path doc = some value := by
  induction path generalizing doc with
  | nil => exact congrArg some h
  | cons step path ih =>
    cases step with
    | key name =>
      obtain ⟨entries, inn, rfl, hmem, hin⟩ := h
      rw [at?, get?, find?_of_nodup (hdis [] entries rfl) hmem]
      exact ih (fun path entries' hat => hdis (.key name :: path) entries'
        ⟨entries, inn, rfl, hmem, hat⟩) hin
    | index i =>
      obtain ⟨it, inn, rfl, hget, hin⟩ := h
      rw [at?, item?, hget]
      exact ih (fun path entries hat => hdis (.index i :: path) entries
        ⟨it, inn, rfl, hget, hat⟩) hin

theorem At.mapStrings (h : At path doc (.string text)) (f : List Step → Bytes → Bytes) :
    At path (mapStrings f doc) (.string (f path text)) := by
  induction path generalizing doc f with
  | nil =>
    obtain rfl : doc = .string text := h
    exact rfl
  | cons step path ih =>
    cases step with
    | key name =>
      obtain ⟨entries, inn, rfl, hmem, hin⟩ := h
      refine ⟨_, _, rfl, ?_, ih hin fun path => f (.key name :: path)⟩
      rw [mapEntries_eq_map]
      exact mem_map.mpr ⟨(name, inn), hmem, rfl⟩
    | index i =>
      obtain ⟨it, inn, rfl, hget, hin⟩ := h
      refine ⟨_, _, rfl, ?_, ih hin fun path => f (.index i :: path)⟩
      rw [getElem?_mapItems, hget, Nat.zero_add]
      rfl

theorem At.of_mapStrings {f : List Step → Bytes → Bytes}
    (h : At path (Json.mapStrings f doc) (.string text)) :
    ∃ before, At path doc (.string before) ∧ text = f path before := by
  induction path generalizing doc f with
  | nil =>
    have h : Json.mapStrings f doc = .string text := h
    cases doc with
    | string before =>
      cases h
      exact ⟨before, rfl, rfl⟩
    | _ => simp [Json.mapStrings] at h
  | cons step path ih =>
    cases step with
    | key name =>
      obtain ⟨entries, inn, hobject, hmem, hin⟩ := h
      cases doc with
      | object entries' =>
        cases hobject
        rw [mapEntries_eq_map] at hmem
        obtain ⟨entry, he, heq⟩ := mem_map.mp hmem
        cases heq
        obtain ⟨before, hb, rfl⟩ := ih hin
        exact ⟨before, ⟨entries', entry.2, rfl, he, hb⟩, rfl⟩
      | _ => simp [Json.mapStrings] at hobject
    | index i =>
      obtain ⟨it, inn, harray, hget, hin⟩ := h
      cases doc with
      | array it' =>
        cases harray
        rw [getElem?_mapItems, Nat.zero_add] at hget
        obtain ⟨inn', hget', rfl⟩ := map_eq_some_iff.mp hget
        obtain ⟨before, hb, rfl⟩ := ih hin
        exact ⟨before, ⟨it', inn', rfl, hget', hb⟩, rfl⟩
      | _ => simp [Json.mapStrings] at harray

mutual

theorem mapStrings_congr {f g : List Step → Bytes → Bytes} : (doc : Json N) →
    (∀ path text, At path doc (.string text) → f path text = g path text) →
      mapStrings f doc = mapStrings g doc
  | .null, _ => rfl
  | .bool _, _ => rfl
  | .number _, _ => rfl
  | .string text, h => by rw [mapStrings, mapStrings, h [] text rfl]
  | .array it, h => by
    rw [mapStrings, mapStrings, mapItems_congr 0 it]
    intro j i path text hget hit
    rw [Nat.zero_add]
    exact h _ _ ⟨it, i, rfl, hget, hit⟩
  | .object entries, h => by
    rw [mapStrings, mapStrings, mapEntries_congr entries]
    intro name value path text hmem hv
    exact h _ _ ⟨entries, value, rfl, hmem, hv⟩

theorem mapItems_congr {f g : List Step → Bytes → Bytes} (i : Nat) : (its : List (Json N)) →
    (∀ j item path text, its[j]? = some item → At path item (.string text) →
      f (.index (i + j) :: path) text = g (.index (i + j) :: path) text) →
      mapItems f i its = mapItems g i its
  | [], _ => rfl
  | item :: its, h => by
    have hhd := mapStrings_congr (f := fun path => f (.index i :: path))
      (g := fun path => g (.index i :: path)) item fun path text => h 0 item path text rfl
    rw [mapItems, mapItems, hhd, mapItems_congr (i + 1) its]
    intro j item' path text hget hit
    rw [Nat.add_right_comm]
    exact h (j + 1) item' path text hget hit

theorem mapEntries_congr {f g : List Step → Bytes → Bytes} : (entries : List (Bytes × Json N)) →
    (∀ name value path text, (name, value) ∈ entries → At path value (.string text) →
      f (.key name :: path) text = g (.key name :: path) text) →
      mapEntries f entries = mapEntries g entries
  | [], _ => rfl
  | (name, value) :: entries, h => by
    rw [mapEntries, mapEntries, mapStrings_congr value fun path text => h name value path text
      mem_cons_self, mapEntries_congr entries]
    intro name' value' path text hmem hv
    exact h name' value' path text (mem_cons_of_mem _ hmem) hv

end

mutual

theorem mapStrings_id : (doc : Json N) → mapStrings (fun _ text => text) doc = doc
  | .null => rfl
  | .bool _ => rfl
  | .number _ => rfl
  | .string _ => rfl
  | .array i => by rw [mapStrings, mapItems_id 0 i]
  | .object entries => by rw [mapStrings, mapEntries_id entries]

theorem mapItems_id (i : Nat) : (its : List (Json N)) →
    mapItems (fun _ text => text) i its = its
  | [] => rfl
  | item :: its => by rw [mapItems, mapStrings_id item, mapItems_id (i + 1) its]

theorem mapEntries_id : (entries : List (Bytes × Json N)) →
    mapEntries (fun _ text => text) entries = entries
  | [] => rfl
  | (name, value) :: entries => by rw [mapEntries, mapStrings_id value, mapEntries_id entries]

end

theorem mapStrings_eq_self {f : List Step → Bytes → Bytes} {document : Json N}
    (h : ∀ path text, At path document (.string text) → f path text = text) :
    mapStrings f document = document :=
  (mapStrings_congr document h).trans (mapStrings_id document)

/-- Rewrites that make the same of a document agree at its positions. -/
theorem eq_of_mapStrings_eq {f g : List Step → Bytes → Bytes}
    (heq : mapStrings f doc = mapStrings g doc) (h : At path doc (.string text)) :
    f path text = g path text := by
  induction path generalizing doc f g with
  | nil =>
    obtain rfl : doc = .string text := h
    exact Json.string.inj heq
  | cons step path ih =>
    cases step with
    | key name =>
      obtain ⟨entries, inn, rfl, hmem, hin⟩ := h
      rw [mapStrings, mapStrings, Json.object.injEq, mapEntries_eq_map, mapEntries_eq_map,
        map_inj_left] at heq
      exact ih (Prod.mk.inj (heq _ hmem)).2 hin
    | index i =>
      obtain ⟨it, inn, rfl, hget, hin⟩ := h
      rw [mapStrings, mapStrings, Json.array.injEq] at heq
      have hit := congrArg (·[i]?) heq
      simp only [getElem?_mapItems, hget, map_some, some.injEq, Nat.zero_add] at hit
      exact ih hit hin

end Json
