import Pingclair.Dispatch.RequestFilter
import Pingclair.Routing.Leaves

/-!
# Query matchers in the pipeline

A query matcher looks for its parameter behind a question mark in the path it is given. Over
HTTP/1 and HTTP/2 every matcher is given the path of the request's target, or a rewritten path,
and neither holds a query.
-/

namespace Pingclair

open ByteText

def Target.HasParameter (target : Target) (regexes : Bytes → Option Regex) (name : Bytes)
    (condition : MatcherCondition) : Prop :=
  ∃ query ∈ target.query, Pingclair.HasParameter regexes query.bytes name condition

def queryMatcher (name : Bytes) (condition : MatcherCondition) : Matcher LeafMatcher :=
  .leaf (.query name condition)

variable {A R H X : Type} {http : HttpLib}

/-- Wherever a matcher is asked — by a variable rule, by the router, by a guard or by an element
of the walk — a query matcher rejects the request. -/
theorem queryMatcher_truthful_iff (lib : MatcherLib http) (targets : TargetLib)
    (run : H → Utf8.Str → Context A R H (RequestFacts http) Variables X →
      LeafResult (RequestFacts http) Variables X)
    (g : GuardLib A R H (RequestFacts http) Variables X) {radix : Radix (List Nat)}
    (site : Site LeafMatcher A R H (RequestFacts http) Variables X radix)
    {c : Context A R H (RequestFacts http) Variables X} (hc : c.Clean)
    {uri : Target} {request : MatcherRequest (RequestFacts http)}
    (hasked : .asked uri request ∈
      (requestFilter ⟨targets, evaluateLeaf lib, run⟩ g site c).2.trail)
    (name : Bytes) (condition : MatcherCondition) (vars : Variables) :
    ((evaluateNode (evaluateLeaf lib) request
        (MatcherNode.compile (queryMatcher name condition)) vars).1 = .matched ↔
      uri.HasParameter lib.regexes name condition) ↔
    ¬ uri.HasParameter lib.regexes name condition := by
  have hp : question ∉ request.path.bytes := (clean_requestFilter site hc).asked _ _ hasked
  have hvd : (evaluateNode (evaluateLeaf lib) request
      (MatcherNode.compile (queryMatcher name condition)) vars).1 ≠ .matched := by
    simp [queryMatcher, MatcherNode.compile, evaluateNode, evaluateLeaf,
      queryMatches_of_not_mem hp, boolVerdict]
  simp [hvd]

namespace AdminSite

def lib : MatcherLib FieldLines.http where
  regexes _ := none
  resolvePlaceholder _ _ _ := []
  evaluateFile _ _ _ _ _ vars := (.noMatch, vars)

def targets : TargetLib where
  parse s := some
    { path := Target.pathPart s
      query := (s.splitOnce question Target.question_lt).map Prod.snd
      path_no_question := Target.pathPart_no_question s }

abbrev AdminContext := Context Unit Unit Unit (RequestFacts FieldLines.http) Variables Unit

def respond (_ : Unit) (_ : Utf8.Str) (c : AdminContext) :
    LeafResult (RequestFacts FieldLines.http) Variables Unit :=
  { outcome := .handled, rewrite := none, errorStatus := none, method := c.method
    facts := c.facts, vars := c.vars, other := () }

def guards : GuardLib Unit Unit Unit (RequestFacts FieldLines.http) Variables Unit where
  allows _ _ := true
  declaresTrailers _ := false
  checkRequest _ _ := (false, ())
  admitRoute _ := .ok ()
  drainLocalRequestBody _ := some ()

def admin : Matcher LeafMatcher := queryMatcher (ascii "admin") (.equals (ascii "1"))

def routes : List (RouteConfig LeafMatcher) := [⟨ascii "/*", none, some admin⟩]

def router : Router LeafMatcher (Entries.radix (List Nat)) :=
  (Router.new (Entries.radix (List Nat)) routes).get (by decide)

def site : Site LeafMatcher Unit Unit Unit (RequestFacts FieldLines.http) Variables Unit
    (Entries.radix (List Nat)) where
  varsRoutes := [⟨some admin, fun _ => some fun _ => some (ascii "yes")⟩]
  router := router
  handlers := [.leaf (.other ())]

theorem root_no_question : question ∉ Target.root.bytes := by decide

def request : AdminContext where
  uri := { path := Target.root, query := some ⟨ascii "admin=1", rfl⟩
           path_no_question := root_no_question }
  rewrittenPath := none
  errorStatus := none
  method := ascii "GET"
  facts := { headers := [], host := ascii "example.com", addresses := ⟨none, none⟩
             protocol := ascii "https" }
  vars := some fun _ => none
  proxy := none
  other := ()
  trail := []

theorem request_clean : request.Clean := ⟨by simp [request], by simp [request]⟩

theorem asked_admin :
    .asked request.uri (request.matcherRequest request.uri.path) ∈
      (requestFilter ⟨targets, evaluateLeaf lib, respond⟩ guards site request).2.trail := by
  have hnone : ((site.router.matchNormalizedRequest (evaluateLeaf lib)
      ((applyVarsRule ⟨targets, evaluateLeaf lib, respond⟩ request.uri.path request
        ⟨some admin, fun _ => some fun _ => some (ascii "yes")⟩).matcherRequest request.uri.path)
      (applyVarsRule ⟨targets, evaluateLeaf lib, respond⟩ request.uri.path request
        ⟨some admin, fun _ => some fun _ => some (ascii "yes")⟩).vars).1.bind
      fun route => site.handlers[route.index]?).isNone = true := by decide +kernel
  rw [requestFilter, site, List.foldl_cons, List.foldl_nil]
  rw [site] at hnone
  rw [Option.isNone_iff_eq_none.mp hnone]
  refine List.mem_append_left _ ?_
  exact List.mem_append_right _ List.mem_cons_self

theorem queryMatcher_truthful_iff_admin :
    ((evaluateNode (evaluateLeaf lib) (request.matcherRequest request.uri.path)
        (MatcherNode.compile (queryMatcher (ascii "user") .existing)) none).1 = .matched ↔
      request.uri.HasParameter lib.regexes (ascii "user") .existing) ↔
    ¬ request.uri.HasParameter lib.regexes (ascii "user") .existing :=
  queryMatcher_truthful_iff lib targets respond guards site request_clean asked_admin _ _ none

/-- The parameter is there. Yet the variable rule that asks for it sets nothing, the route that
asks for it is not found, and the element that asks for it does not answer. -/
theorem not_truthful_admin :
    request.uri.HasParameter lib.regexes (ascii "admin") (.equals (ascii "1")) ∧
      (requestFilter ⟨targets, evaluateLeaf lib, respond⟩ guards site request).2.vars.bind
        (· (ascii "role")) = none ∧
      (requestFilter ⟨targets, evaluateLeaf lib, respond⟩ guards site request).1 = .notFound ∧
      (Handler.handleConfig ⟨targets, evaluateLeaf lib, respond⟩
        (.pipeline (.cons (some admin) (.leaf (.other ())) .nil)) request.uri.path request).1 =
          .passed := by
  refine ⟨⟨_, rfl, ascii "1", ?_, ?_, ?_⟩, ?_, ?_, ?_⟩
  all_goals decide +kernel

end AdminSite

end Pingclair
