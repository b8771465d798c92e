import Pingclair.Routing.Router

/-!
# What matchers record for one another

A matcher may leave variables, and another one may read them. The matchers of a group are steady
for some requests when no verdict on these depends on which of them were asked before.
-/

namespace Pingclair

variable {L F Vars : Type}

/-- The variables that matchers may leave when they are asked about requests. -/
inductive Recorded (leaf : LeafEvaluator L F Vars) (matchers : List (Matcher L))
    (requests : Set (MatcherRequest F)) (vars : Vars) : Vars → Prop
  | nothing : Recorded leaf matchers requests vars vars
  | asked {vars' : Vars} {matcher : Matcher L} {request : MatcherRequest F} :
    Recorded leaf matchers requests vars vars' → matcher ∈ matchers → request ∈ requests →
      Recorded leaf matchers requests vars (evaluateNode leaf request (.compile matcher) vars').2

/-- No verdict depends on what was recorded. -/
def Steady (leaf : LeafEvaluator L F Vars) (matchers : List (Matcher L))
    (requests : Set (MatcherRequest F)) (vars : Vars) : Prop :=
  ∀ vars', Recorded leaf matchers requests vars vars' → ∀ matcher ∈ matchers,
    ∀ request ∈ requests, (evaluateNode leaf request (.compile matcher) vars').1 =
      (evaluateNode leaf request (.compile matcher) vars).1

end Pingclair
