import Mathlib.Data.List.Range

/-!
# The first element that a stateful test accepts

`find` tries the elements of a list in order and stops at the first accepted one; every
test may change a state that the later ones see.
-/

namespace StatefulFind

open List Option

variable {α σ : Type*}

def find (test : α → σ → Bool × σ) : List α → σ → Option α × σ
  | [], state => (none, state)
  | a :: rest, state =>
    match test a state with
    | (true, state) => (some a, state)
    | (false, state) => find test rest state

variable {test test' : α → σ → Bool × σ} {l : List α}

/-- Leaving out elements that are refused without a trace changes nothing. -/
theorem find_filter {keep : α → Bool}
    (h : ∀ a ∈ l, keep a = false → ∀ state, test a state = (false, state)) (state : σ) :
    find test (l.filter keep) state = find test l state := by
  induction l generalizing state with
  | nil => rfl
  | cons a l ih =>
    have htl := ih (forall_mem_cons.mp h).2
    cases hke : keep a with
    | true =>
      rw [filter_cons_of_pos hke, find, find]
      simp [htl]
    | false =>
      rw [filter_cons_of_neg (by simp [hke]), htl, find, h a mem_cons_self hke]

theorem find_congr (h : ∀ a ∈ l, ∀ state, test a state = test' a state) (state : σ) :
    find test l state = find test' l state := by
  induction l generalizing state with
  | nil => rfl
  | cons a l ih =>
    rw [find, find, h a mem_cons_self]
    simp [ih (forall_mem_cons.mp h).2]

/-- Searching the elements that indices stand for is searching the indices. -/
theorem find_filterMap {β : Type*} (f : β → Option α) (l : List β) (s : σ) :
    find test (l.filterMap f) s =
      ((find (fun b s => ((f b).map (test · s)).getD (false, s)) l s).1.bind f,
        (find (fun b s => ((f b).map (test · s)).getD (false, s)) l s).2) := by
  induction l generalizing s with
  | nil => rfl
  | cons b l ih =>
    cases hf : f b with
    | none =>
      rw [filterMap_cons_none hf, ih, find, hf]
      rfl
    | some a =>
      rw [filterMap_cons_some hf, find, find, hf]
      simp only [map_some, getD_some]
      rcases test a s with ⟨_ | _, s'⟩
      · exact ih s'
      · simp [hf]

/-- The state in which the turn of index `i` comes, when no test before it accepts. -/
def stateAt (test : Nat → σ → Bool × σ) (state : σ) (i : Nat) : σ :=
  (List.range i).foldl (fun state j => (test j state).2) state

/-- Over indices, the element found is the least one that is accepted in its turn. -/
theorem find_range (test : Nat → σ → Bool × σ) (n : Nat) (s : σ) :
    (find test (List.range n) s).1 =
      (List.range n).find? fun i => (test i (stateAt test s i)).1 := by
  have hfr : ∀ (n start : Nat) (s : σ),
      (find test (List.range' start n) s).1 = (List.range' start n).find? fun i =>
        (test i ((List.range' start (i - start)).foldl (fun s j => (test j s).2) s)).1 := by
    intro n
    induction n with
    | zero =>
      intro start s
      rfl
    | succ n ih =>
      intro start s
      rw [List.range'_succ, find, List.find?_cons]
      simp only [Nat.sub_self, List.range'_zero, foldl_nil]
      rcases htest : test start s with ⟨_ | _, s'⟩
      · simp only [ih, ← List.head?_filter]
        congr 1
        apply filter_congr
        intro i hi
        obtain ⟨hlo, -⟩ := mem_range'_1.mp hi
        have hsub : i - start = (i - (start + 1)) + 1 := by omega
        rw [hsub, List.range'_succ, foldl_cons, htest]
      · rfl
  rw [range_eq_range', hfr]
  simp [stateAt, range_eq_range']

end StatefulFind
