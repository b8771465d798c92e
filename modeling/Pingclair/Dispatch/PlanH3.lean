import Pingclair.Dispatch.Walk

/-!
# The plan for HTTP/3

Over HTTP/3 the tree of a route's handlers is walked to a plan: the leaf that completes it answers.
A reverse proxy completes a plan at once, and so does a file server, unless its group has a proxy
anywhere; the path that matchers see is always the one of the target.
-/

namespace Pingclair

open ByteText

variable {L A R H F Vars X : Type}

/-- A request of which a plan is made. `effectiveUri` is its target as a text. -/
structure PlanContext (A R H F Vars X : Type) extends Context A R H F Vars X where
  effectiveUri : Utf8.Str

/-- What a plan is: to go on, the leaf that completes it, a status that a matcher raised, or a
failure. -/
inductive Plan (A R H : Type) where
  | next
  | completed (handler : LeafHandler A R H)
  | raised (status : Nat)
  | failed

def Outcome.plan (handler : LeafHandler A R H) : Outcome → Plan A R H
  | .passed => .next
  | .handled => .completed handler
  | .failed => .failed

/-- What a leaf handler of the parameter leaves. `rewrite` is the new target, when there is
one. -/
structure PlanResult (F Vars X : Type) where
  outcome : Outcome
  rewrite : Option Utf8.Str
  method : Bytes
  facts : F
  vars : Vars
  other : X

structure Planner (L A R H F Vars X : Type) where
  targets : TargetLib
  leaf : LeafEvaluator L F Vars
  plan : H → PlanContext A R H F Vars X → PlanResult F Vars X

namespace Planner

variable (p : Planner L A R H F Vars X)

def elementMatcherVerdict (matcher : Option (Matcher L)) (c : PlanContext A R H F Vars X) :
    MatcherVerdict × PlanContext A R H F Vars X :=
  match matcher with
  | none => (.matched, c)
  | some matcher =>
    let request := c.matcherRequest (Target.pathPart c.effectiveUri)
    let answer := evaluateNode p.leaf request (MatcherNode.compile matcher) c.vars
    (answer.1, { c with toContext := { c.record (.asked c.uri request) with vars := answer.2 } })

def setTarget (newUri : Utf8.Str) (c : PlanContext A R H F Vars X) :
    Option (PlanContext A R H F Vars X) :=
  (p.targets.parse newUri).map fun uri =>
    { c with toContext := { c.toContext with uri }, effectiveUri := newUri }

def planConfig (handler : LeafHandler A R H) (config : H) (c : PlanContext A R H F Vars X) :
    Plan A R H × PlanContext A R H F Vars X :=
  let result := p.plan config c
  let plan := result.outcome.plan handler
  let c := { c with toContext := { c.toContext with
    method := result.method, facts := result.facts, vars := result.vars,
    other := result.other } }
  match result.rewrite with
  | none => (plan, c)
  | some newUri =>
    match p.setTarget newUri c with
    | some c => (plan, c)
    | none => (.failed, c)

def planLeaf (handler : LeafHandler A R H) (c : PlanContext A R H F Vars X) :
    Plan A R H × PlanContext A R H F Vars X :=
  let c := { c with toContext := c.record (.reached handler) }
  match handler with
  | .accessControl _ | .rateLimit _ => (.next, c)
  | .fileServer _ | .reverseProxy _ true _ | .reverseProxy _ false false => (.completed handler, c)
  | .reverseProxy config false true | .other config => p.planConfig handler config c

end Planner

mutual

def Handler.planH3Handler (p : Planner L A R H F Vars X) :
    Handler L A R H → PlanContext A R H F Vars X → Plan A R H × PlanContext A R H F Vars X
  | .leaf handler, c => p.planLeaf handler c
  | .pipeline handlers, c => handlers.planPipeline p handlers.containsReverseProxy c
  | .firstMatch handlers, c => handlers.planFirstMatch p handlers.containsReverseProxy c
  | .handlePath pre handlers, c =>
    let stripped :=
      if (stripPathPrefix (Target.pathPart c.effectiveUri) pre).isSome then
        p.setTarget (rewriteUri c.effectiveUri (some pre) none none none) c
      else some c
    match stripped with
    | some c => handlers.planFirstMatch p handlers.containsReverseProxy c
    | none => (.failed, c)

def Elements.planPipeline (p : Planner L A R H F Vars X) :
    Elements L A R H → (hasProxy : Bool) → PlanContext A R H F Vars X →
      Plan A R H × PlanContext A R H F Vars X
  | .nil, _, c => (.next, c)
  | .cons matcher handler rest, hasProxy, c =>
    match p.elementMatcherVerdict matcher c with
    | (.noMatch, c) => rest.planPipeline p hasProxy c
    | (.error code, c) => (.raised code, c)
    | (.matched, c) =>
      if hasProxy && handler.isFileServer then rest.planPipeline p hasProxy c
      else
        match handler.planH3Handler p c with
        | (.next, c) => rest.planPipeline p hasProxy c
        | completed => completed

def Elements.planFirstMatch (p : Planner L A R H F Vars X) :
    Elements L A R H → (hasProxy : Bool) → PlanContext A R H F Vars X →
      Plan A R H × PlanContext A R H F Vars X
  | .nil, _, c => (.next, c)
  | .cons matcher handler rest, hasProxy, c =>
    match p.elementMatcherVerdict matcher c with
    | (.noMatch, c) => rest.planFirstMatch p hasProxy c
    | (.error code, c) => (.raised code, c)
    | (.matched, c) =>
      if hasProxy && handler.isFileServer then rest.planFirstMatch p hasProxy c
      else handler.planH3Handler p c

end

end Pingclair
