import Pingclair.Routing.Router

/-!
# Checks

A matcher, given a request, reads the variables of the request, may change them, and answers with a
verdict. A check that only answers yes or no and leaves the variables alone is a `test`. Tests may
be moved before other checks as far as acceptance goes, but not as far as errors go.
-/

namespace Pingclair

open List Option

abbrev Check (Vars : Type) := Vars → MatcherVerdict × Vars

namespace Check

variable {Vars : Type}

def both (a b : Check Vars) : Check Vars := fun vars =>
  match a vars with
  | (.matched, vars) => b vars
  | verdict => verdict

def either (a b : Check Vars) : Check Vars := fun vars =>
  match a vars with
  | (.noMatch, vars) => b vars
  | verdict => verdict

def negate (a : Check Vars) : Check Vars := fun vars =>
  match a vars with
  | (.matched, vars) => (.noMatch, vars)
  | (.noMatch, vars) => (.matched, vars)
  | verdict => verdict

def test (b : Bool) : Check Vars := fun vars => (boolVerdict b, vars)

/-- Checks one after another, up to the first that does not accept. -/
def all : List (Check Vars) → Check Vars
  | [] => test true
  | c :: checks => both c (all checks)

variable {a b c : Check Vars} {vars : Vars}

theorem matched_negate : (negate a vars).1 = .matched ↔ (a vars).1 = .noMatch := by
  rw [negate]
  rcases a vars with ⟨_ | _ | ss, vars'⟩ <;> simp

theorem both_of_matched (h : (a vars).1 = .matched) : both a b vars = b (a vars).2 := by
  rw [both]
  rcases ha : a vars with ⟨v, vars'⟩
  rw [ha] at h
  obtain rfl : v = .matched := h
  rfl

theorem both_of_not_matched (h : (a vars).1 ≠ .matched) : both a b vars = a vars := by
  rw [both]
  rcases ha : a vars with ⟨_ | _ | ss, vars'⟩
  · rw [ha] at h
    exact absurd rfl h
  · rfl
  · rfl

theorem both_assoc : both (both a b) c = both a (both b c) := by
  funext vars
  by_cases h : (a vars).1 = .matched
  · rw [both_of_matched h, both, both_of_matched h]
    rfl
  · have hab : (both a b vars).1 ≠ .matched := by rwa [both_of_not_matched h]
    rw [both_of_not_matched hab, both_of_not_matched h, both_of_not_matched h]

@[simp] theorem both_test_true : both (test true) a = a := rfl

theorem both_true : both a (test true) = a := by
  funext vars
  by_cases h : (a vars).1 = .matched
  · rw [both_of_matched h, test, ← h.trans (by rfl : MatcherVerdict.matched = boolVerdict true)]
  · exact both_of_not_matched h

theorem foldl_both (checks : List (Check Vars)) (a : Check Vars) :
    checks.foldl both a = both a (all checks) := by
  induction checks generalizing a with
  | nil => exact both_true.symm
  | cons c checks ih => rw [foldl_cons, ih, both_assoc, all]

theorem all_append_tests (tests : List Bool) (checks : List (Check Vars)) :
    all (tests.map test ++ checks) =
      if tests.all id then all checks else test false := by
  induction tests with
  | nil => rfl
  | cons b tests ih =>
    rw [map_cons, cons_append, all, ih]
    cases b with
    | true => simp
    | false => rfl

theorem either_test (b c : Bool) : either (test b) (test c) = (test (b || c) : Check Vars) := by
  cases b <;> rfl

theorem foldl_either_test (tests : List Bool) (b : Bool) :
    (tests.map test).foldl either (test b) = (test (b || tests.any id) : Check Vars) := by
  induction tests generalizing b with
  | nil => simp
  | cons c tests ih => rw [map_cons, foldl_cons, either_test, ih, any_cons, Bool.or_assoc, id]

section Among

variable {α : Type} {run : α → Check Vars} {tests : α → Option Bool}

variable {l : List α}

theorem all_filter_of_tests (hrun : ∀ a b, tests a = some b → run a = test b)
    (h : ∀ a ∈ l, tests a ≠ some false) :
    all (l.map run) = all ((l.filter (tests · = none)).map run) := by
  induction l with
  | nil => rfl
  | cons a l ih =>
    have hrest := ih (forall_mem_cons.mp h).2
    rw [map_cons, all, hrest]
    cases ha : tests a with
    | none => simp [ha, all]
    | some b =>
      have hb : b = true := by
        cases b with
        | true => rfl
        | false => exact absurd ha (h a mem_cons_self)
      rw [hrun a b ha, hb]
      simp [ha]

theorem not_matched_all (hrun : ∀ a b, tests a = some b → run a = test b) {a : α} (ha : a ∈ l)
    (hrej : tests a = some false) (vars : Vars) : (all (l.map run) vars).1 ≠ .matched := by
  induction l generalizing vars with
  | nil => exact absurd ha not_mem_nil
  | cons b l ih =>
    rw [map_cons, all]
    by_cases hb : (run b vars).1 = .matched
    · rw [both_of_matched hb]
      rcases mem_cons.mp ha with rfl | ha
      · rw [hrun a false hrej] at hb
        simp [test, boolVerdict] at hb
      · exact ih ha _
    · rwa [both_of_not_matched hb]

theorem noMatch_all_of_others (hrun : ∀ a b, tests a = some b → run a = test b)
    (h : (all ((l.filter (tests · = none)).map run) vars).1 = .noMatch) :
    (all (l.map run) vars).1 = .noMatch := by
  induction l generalizing vars with
  | nil => exact h
  | cons a l ih =>
    rw [map_cons, all]
    cases ha : tests a with
    | none =>
      simp only [ha, decide_true, filter_cons_of_pos, map_cons, all] at h
      by_cases hmatched : (run a vars).1 = .matched
      · rw [both_of_matched hmatched] at h ⊢
        exact ih h
      · rw [both_of_not_matched hmatched] at h ⊢
        exact h
    | some b =>
      have hothers : (all ((l.filter (tests · = none)).map run) vars).1 = .noMatch := by
        simpa [ha] using h
      rw [hrun a b ha]
      cases b with
      | true => exact ih hothers
      | false => rfl

end Among

/-- A conjunction raises an error at the check that does, when all before it accept. -/
theorem error_all_iff {α : Type} {run : α → Check Vars} {l : List α} :
    (∃ status, (all (l.map run) vars).1 = .error status) ↔
      ∃ before a after, l = before ++ a :: after ∧ (all (before.map run) vars).1 = .matched ∧
        ∃ status, (run a (all (before.map run) vars).2).1 = .error status := by
  induction l generalizing vars with
  | nil => simp [all, test, boolVerdict]
  | cons b l ih =>
    rw [map_cons, all]
    by_cases hb : (run b vars).1 = .matched
    · rw [both_of_matched hb, ih]
      constructor
      · rintro ⟨before, a, after, rfl, hbe, herr⟩
        refine ⟨b :: before, a, after, rfl, ?_, ?_⟩
        · rwa [map_cons, all, both_of_matched hb]
        · rwa [map_cons, all, both_of_matched hb]
      · rintro ⟨before, a, after, heq, hbe, status, herr⟩
        cases before with
        | nil =>
          obtain ⟨rfl, rfl⟩ := List.cons.inj heq
          have hst : (run b vars).1 = .error status := herr
          rw [hb] at hst
          cases hst
        | cons b' before =>
          obtain ⟨rfl, rfl⟩ := List.cons.inj heq
          rw [map_cons, all, both_of_matched hb] at hbe herr
          exact ⟨before, a, after, rfl, hbe, status, herr⟩
    · rw [both_of_not_matched hb]
      constructor
      · rintro ⟨status, herr⟩
        exact ⟨[], b, l, rfl, rfl, status, herr⟩
      · rintro ⟨before, a, after, heq, hbe, status, herr⟩
        cases before with
        | nil =>
          obtain ⟨rfl, rfl⟩ := List.cons.inj heq
          exact ⟨status, herr⟩
        | cons b' before =>
          obtain ⟨rfl, rfl⟩ := List.cons.inj heq
          rw [map_cons, all, both_of_not_matched hb] at hbe
          exact absurd hbe hb

end Check

end Pingclair
