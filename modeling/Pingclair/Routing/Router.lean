import Pingclair.Lib.StatefulFind
import Pingclair.Path.Percent
import Pingclair.Path.Uppercase
import Pingclair.Routing.Candidates

/-!
# The router

A request goes to the first route whose path, methods and matcher accept it. The router looks the
decoded path up in the radix tree, in lower case, and tries only the candidates stored there. Leaves
of matchers may read and write request-scoped variables; how they are evaluated is a parameter.
-/

namespace Pingclair

open ByteText AsciiCase Percent List RoutePath

/-- A matcher, as configured. `L` are the matchers other than paths and combinators. -/
inductive Matcher (L : Type) where
  | path (patterns : List Bytes)
  | and (left right : Matcher L)
  | or (left right : Matcher L)
  | not (inner : Matcher L)
  | leaf (matcher : L)

/-- A matcher as it is evaluated, its `path` patterns classified. -/
inductive MatcherNode (L : Type) where
  | path (patterns : List PathPattern)
  | and (left right : MatcherNode L)
  | or (left right : MatcherNode L)
  | not (inner : MatcherNode L)
  | leaf (matcher : L)

def MatcherNode.compile {L : Type} : Matcher L → MatcherNode L
  | .path patterns => path (patterns.map PathPattern.of)
  | .and left right => and (compile left) (compile right)
  | .or left right => or (compile left) (compile right)
  | .not inner => not (compile inner)
  | .leaf matcher => leaf matcher

inductive MatcherVerdict where
  | matched
  | noMatch
  | error (status : Nat)
  deriving DecidableEq

/-- What matchers see of a request. `facts` is what only leaves read: headers, host,
addresses, protocol. -/
structure MatcherRequest (F : Type) where
  path : Utf8.Str
  method : Bytes
  facts : F

variable {L F Vars : Type}

/-- How a leaf is evaluated, and the variables it leaves. -/
abbrev LeafEvaluator (L F Vars : Type) := L → MatcherRequest F → Vars → MatcherVerdict × Vars

def boolVerdict (b : Bool) : MatcherVerdict := if b then .matched else .noMatch

def evaluateNode (leaf : LeafEvaluator L F Vars) (request : MatcherRequest F) :
    MatcherNode L → Vars → MatcherVerdict × Vars
  | .path patterns, vars =>
    let matching := decodeForMatching request.path.bytes
    (boolVerdict (patterns.any (·.matches matching)), vars)
  | .leaf matcher, vars => leaf matcher request vars
  | .and left right, vars =>
    match evaluateNode leaf request left vars with
    | (.matched, vars) => evaluateNode leaf request right vars
    | verdict => verdict
  | .or left right, vars =>
    match evaluateNode leaf request left vars with
    | (.noMatch, vars) => evaluateNode leaf request right vars
    | verdict => verdict
  | .not inner, vars =>
    match evaluateNode leaf request inner vars with
    | (.matched, vars) => (.noMatch, vars)
    | (.noMatch, vars) => (.matched, vars)
    | verdict => verdict

def evaluate (leaf : LeafEvaluator L F Vars) (request : MatcherRequest F)
    (compiled : MatcherNode L) (vars : Vars) : Bool × Vars :=
  let (verdict, vars) := evaluateNode leaf request compiled vars
  (verdict = .matched, vars)

structure RouteConfig (L : Type) where
  path : Bytes
  methods : Option (List Bytes)
  matcher : Option (Matcher L)

structure CompiledRoute (L : Type) where
  config : RouteConfig L
  index : Nat
  compiledMatcher : Option (MatcherNode L)
  wildcard : Option PathPattern

structure Router (L : Type) (radix : Radix (List Nat)) where
  pathRouter : radix.Tree
  defaultRoutes : List Nat
  compiledRoutes : List (CompiledRoute L)

namespace Router

variable {radix : Radix (List Nat)}

def compileRoute (config : RouteConfig L) (index : Nat) : CompiledRoute L :=
  { config, index
    compiledMatcher := config.matcher.map MatcherNode.compile
    wildcard := Pingclair.wildcard config.path }

/-- Compiles the routes and precomputes every node's candidate list. `none` when the tree
refuses a path, which the source answers with a panic. -/
def new (radix : Radix (List Nat)) (routes : List (RouteConfig L)) : Option (Router L radix) :=
  let candidates := build (routes.map RouteConfig.path)
  (radix.compile candidates.nodes).map fun pathRouter =>
    { pathRouter
      defaultRoutes := candidates.any
      compiledRoutes := routes.mapIdx fun index config => compileRoute config index }

def validatePaths (radix : Radix (List Nat)) (routes : List (RouteConfig L)) : Bool :=
  (radix.compile (build (routes.map RouteConfig.path)).nodes).isSome

def nodeCandidates (router : Router L radix) (key : Bytes) : List Nat :=
  match radix.lookup router.pathRouter key with
  | some indices => indices
  | none => router.defaultRoutes

/-- Calls `f` with the path in lower case. Paths of up to 256 bytes are folded in a buffer
and checked. -/
def withAsciiLowercase {R : Type} (path : Bytes) (f : Bytes → R) : R :=
  if path.length ≤ 256 ∧ Utf8.valid (fold path) then f (fold path) else f (fold path)

def candidates (router : Router L radix) (path : Bytes) : List Nat :=
  if hasAsciiUppercase path then withAsciiLowercase path router.nodeCandidates
  else router.nodeCandidates path

/-- Whether a candidate accepts the request. `matching` is the path as patterns see it. -/
def routeMatches (leaf : LeafEvaluator L F Vars) (request : MatcherRequest F) (matching : Bytes)
    (route : CompiledRoute L) (vars : Vars) : Bool × Vars :=
  if route.wildcard.any (fun pattern => !pattern.matches matching) then (false, vars)
  else if route.config.methods.any
      (fun methods => !methods.any (eqIgnoreCase · request.method)) then (false, vars)
  else
    match route.compiledMatcher with
    | none => (true, vars)
    | some compiled => evaluate leaf request compiled vars

def matchNormalizedRequest (leaf : LeafEvaluator L F Vars) (router : Router L radix)
    (request : MatcherRequest F) (vars : Vars) : Option (CompiledRoute L) × Vars :=
  let matching := decodeForMatching request.path.bytes
  StatefulFind.find (routeMatches leaf request matching)
    ((router.candidates matching).filterMap (router.compiledRoutes[·]?)) vars

end Router

def pathAccepts (pattern path : Bytes) : Bool :=
  if pattern = [] ∨ pattern = [slash] ∨ pattern = [slash, star] ∨ pattern = [star] then true
  else if star ∉ pattern then eqIgnoreCase pattern path
  else
    match pattern.dropSuffix? [star] with
    | none => (PathPattern.of pattern).matches path
    | some text =>
      if star ∈ text then (PathPattern.of pattern).matches path
      -- the only star is last
      else startsWith path text || (text.dropSuffix? [slash]).any (eqIgnoreCase path)

/-- One turn of the plain scan: path, methods, matcher. -/
def scanTurn (leaf : LeafEvaluator L F Vars) (routes : List (RouteConfig L))
    (request : MatcherRequest F) (i : Nat) (vars : Vars) : Bool × Vars :=
  match routes[i]? with
  | none => (false, vars)
  | some route =>
    if pathAccepts route.path (decodeForMatching request.path.bytes) &&
        route.methods.all (fun methods => methods.any (eqIgnoreCase · request.method)) then
      match route.matcher with
      | none => (true, vars)
      | some matcher => evaluate leaf request (MatcherNode.compile matcher) vars
    else (false, vars)

/-- The least index whose route accepts the request, each route judged with the variables
that the matchers tried before it leave. -/
def plainScan (leaf : LeafEvaluator L F Vars) (routes : List (RouteConfig L))
    (request : MatcherRequest F) (vars : Vars) : Option Nat :=
  (List.range routes.length).find? fun i =>
    (scanTurn leaf routes request i (StatefulFind.stateAt (scanTurn leaf routes request) vars i)).1

def RoutePath.folded : RoutePath → RoutePath
  | any => any
  | prefixed text => prefixed (fold text)
  | exact text => exact (fold text)
  | wildcard pattern => wildcard pattern.folded

theorem fold_eq_iff {s t : Bytes} (ht : ∀ b ∈ t, b < 0x41) : fold s = t ↔ s = t := by
  induction s generalizing t with
  | nil => simp
  | cons b s ih =>
    cases t with
    | nil => simp
    | cons c t =>
      simp only [forall_mem_cons] at ht
      rw [fold_cons, List.cons.injEq, List.cons.injEq, lower_eq_iff ht.1, ih ht.2]

theorem RoutePath.of_fold (path : Bytes) : of (fold path) = (of path).folded := by
  have hsl : fold path = [slash] ↔ path = [slash] := fold_eq_iff (by simp; decide)
  have hstar : fold path = [star] ↔ path = [star] := fold_eq_iff (by simp; decide)
  have hboth : fold path = [slash, star] ↔ path = [slash, star] := fold_eq_iff (by simp; decide)
  have hni : fold path = [] ↔ path = [] := fold_eq_iff (by simp)
  rw [of, of]
  simp only [hsl, hstar, hboth, hni, PathPattern.of_fold]
  split
  · rfl
  · cases PathPattern.of path <;> rfl

theorem dropSuffix?_fold (text : Bytes) :
    (fold text).dropSuffix? [slash] = (text.dropSuffix? [slash]).map fold := by
  rcases eq_nil_or_concat' text with rfl | ⟨init, b, rfl⟩
  · rfl
  · have hb : lower b = slash ↔ b = slash := lower_eq_iff (by decide)
    by_cases hsl : b = slash
    · rw [hsl, dropSuffix?_eq_some.mpr rfl]
      exact dropSuffix?_eq_some.mpr (by rw [fold_append]; rfl)
    · have hnone :
          ∀ (s : Bytes) (c : UInt8), c ≠ slash → (s ++ [c]).dropSuffix? [slash] = none := by
        intro s c hc
        cases h : (s ++ [c]).dropSuffix? [slash] with
        | none => rfl
        | some u =>
          have := (append_inj' (dropSuffix?_eq_some.mp h) rfl).2
          exact absurd (singleton_inj.mp this) hc
      rw [hnone _ _ hsl, fold_append]
      exact hnone _ _ (fun h => hsl (hb.mp h))

theorem pathAccepts_eq (pattern path : Bytes) :
    pathAccepts pattern path = (of (fold pattern)).accepts (fold path) := by
  rw [of_fold, pathAccepts]
  by_cases hany : pattern = [] ∨ pattern = [slash] ∨ pattern = [slash, star] ∨ pattern = [star]
  · rw [if_pos hany, of, if_pos hany]
    rfl
  · rw [if_neg hany, of, if_neg hany]
    cases hof : PathPattern.of pattern with
    | any => exact absurd (.inr (.inr (.inr (PathPattern.of_eq_any.mp hof)))) hany
    | exact text =>
      obtain ⟨rfl, hstar⟩ := PathPattern.of_eq_exact.mp hof
      simp [hstar, folded, accepts, eqIgnoreCase, Bool.beq_eq_decide_eq]
    | prefixed text =>
      obtain ⟨rfl, hstar, -⟩ := PathPattern.of_eq_prefixed.mp hof
      have hdrop : (text ++ [star]).dropSuffix? [star] = some text := dropSuffix?_eq_some.mpr rfl
      have hpre : startsWith path text = (fold text).isPrefixOf (fold path) := by
        rw [Bool.eq_iff_iff, startsWith_iff, isPrefixOf_iff_prefix]
      rw [hdrop]
      simp only [hstar, if_false, folded, accepts, dropSuffix?_fold, hpre]
      cases text.dropSuffix? [slash] with
      | none => simp
      | some bare => simp [eqIgnoreCase, eq_comm, Bool.beq_eq_decide_eq]
    | suffixed text | substring text | glob text =>
      -- the star is there, and not the only one at the end
      have hstar : star ∈ pattern := by
        by_contra h
        rw [PathPattern.of_eq_exact.mpr ⟨rfl, h⟩] at hof
        simp at hof
      have hlast : ∀ text, pattern.dropSuffix? [star] = some text → star ∈ text := by
        intro text hdrop
        obtain rfl := dropSuffix?_eq_some.mp hdrop
        by_contra h
        by_cases hne : text = []
        · subst hne
          exact hany (by simp)
        · rw [PathPattern.of_eq_prefixed.mpr ⟨rfl, h, hne⟩] at hof
          simp at hof
      rw [if_neg (by simpa using hstar)]
      simp only [folded, accepts, matches_folded]
      cases hdrop : pattern.dropSuffix? [star] with
      | none => rfl
      | some text => simp [hlast text hdrop]

/-! ### The scan over candidates -/

theorem candidates_eq {radix : Radix (List Nat)} (router : Router L radix) (path : Utf8.Str) :
    router.candidates path.bytes = router.nodeCandidates (fold path.bytes) := by
  rw [Router.candidates, hasAsciiUppercase_eq]
  split
  · rw [Router.withAsciiLowercase, ite_self]
  · next h => rw [fold_of_no_upper (by simpa using h)]

theorem wildcard_any_iff (route path : Bytes) :
    (wildcard route).any (fun pattern => !pattern.matches path) = false ↔
      ∀ pattern, of (fold route) = .wildcard pattern → pattern.matches (fold path) = true := by
  rw [wildcard, of_fold]
  cases of route with
  | any | prefixed text | exact text => simp [folded]
  | wildcard pattern => simp [folded, matches_folded]

section

variable (leaf : LeafEvaluator L F Vars) (request : MatcherRequest F)
  {routes : List (RouteConfig L)} {nodes : List (Bytes × Node)} {landing : Option Node}
  {route : RouteConfig L} {i : Nat}

/-- A candidate that is listed is judged as the plain scan judges it. -/
theorem routeMatches_of_listed
    (hland : Lands nodes (fold (decodeForMatching request.path.bytes)) landing)
    (how : ∀ node ∈ ownNodes (fold route.path), Registered nodes node)
    (hltd : (of (fold route.path)).listed landing = true)
    (hroute : routes[i]? = some route) (vars : Vars) :
    Router.routeMatches leaf request (decodeForMatching request.path.bytes)
      (Router.compileRoute route i) vars = scanTurn leaf routes request i vars := by
  have hac := listed_iff_accepts hland how
  rw [← pathAccepts_eq, ← wildcard_any_iff] at hac
  simp only [hltd, true_and] at hac
  rw [scanTurn, hroute, Router.routeMatches, Router.compileRoute]
  simp only
  cases hp : pathAccepts route.path (decodeForMatching request.path.bytes) with
  | false =>
    have hany : (wildcard route.path).any (fun pattern =>
        !pattern.matches (decodeForMatching request.path.bytes)) = true := by
      simpa [hp] using hac
    simp [hany]
  | true =>
    rw [hac.mpr hp]
    cases hmethods : route.methods with
    | none => cases route.matcher <;> rfl
    | some methods =>
      cases hany : methods.any (eqIgnoreCase · request.method) with
      | false => simp [hany]
      | true => cases route.matcher <;> simp [hany]

/-- A route that is not listed is one the plain scan passes over. -/
theorem scanTurn_of_not_listed
    (hland : Lands nodes (fold (decodeForMatching request.path.bytes)) landing)
    (how : ∀ node ∈ ownNodes (fold route.path), Registered nodes node)
    (hltd : (of (fold route.path)).listed landing = false) (hroute : routes[i]? = some route)
    (vars : Vars) : scanTurn leaf routes request i vars = (false, vars) := by
  have hac := listed_iff_accepts hland how
  rw [← pathAccepts_eq] at hac
  have hp : pathAccepts route.path (decodeForMatching request.path.bytes) = false := by
    simpa [hltd] using hac
  simp [scanTurn, hroute, hp]

end

/-- The candidates stored for a path are the routes listed where it lands. -/
theorem nodeCandidates_eq {radix : Radix (List Nat)} {routes : List (RouteConfig L)}
    {router : Router L radix} (hnew : Router.new radix routes = some router) (path : Bytes) :
    ∃ landing, Lands (((routes.map RouteConfig.path).map fold).foldl addRoute []) path landing ∧
      router.nodeCandidates path =
        indicesOf (((routes.map RouteConfig.path).map fold).map of) (·.listed landing) := by
  rw [Router.new, Option.map_eq_some_iff] at hnew
  obtain ⟨t, hcmp, rfl⟩ := hnew
  have hkeyed : WellKeyed (((routes.map RouteConfig.path).map fold).foldl addRoute []) :=
    (foldl_addRoute_registers (by simp [WellKeyed]) _).wellKeyed
  obtain ⟨landing, hland, hlk⟩ := exists_lands radix hkeyed
    (fun n => indicesOf (((routes.map RouteConfig.path).map fold).map of) (·.covers n)) hcmp path
  refine ⟨landing, hland, ?_⟩
  rw [Router.nodeCandidates, hlk]
  cases landing <;> rfl

/-- Every route has registered its own nodes. -/
theorem registered_of_route {routes : List (RouteConfig L)} {route : RouteConfig L}
    (hroute : route ∈ routes) : ∀ node ∈ ownNodes (fold route.path),
      Registered (((routes.map RouteConfig.path).map fold).foldl addRoute []) node := by
  intro node hnode
  refine (foldl_addRoute_registers (by simp [WellKeyed]) _).added node ?_
  refine mem_flatMap.mpr ⟨fold route.path, ?_, hnode⟩
  rw [map_map]
  exact mem_map_of_mem (f := fold ∘ RouteConfig.path) hroute

/-- Over indices, the candidates are searched as the plain scan searches all routes. -/
theorem find_candidates_eq {nodes : List (Bytes × Node)} {landing : Option Node}
    (leaf : LeafEvaluator L F Vars) (request : MatcherRequest F) (routes : List (RouteConfig L))
    (hland : Lands nodes (fold (decodeForMatching request.path.bytes)) landing)
    (how : ∀ route ∈ routes, ∀ node ∈ ownNodes (fold route.path), Registered nodes node)
    (vars : Vars) :
    StatefulFind.find (fun i vars => (((routes[i]?).map (Router.compileRoute · i)).map
        (Router.routeMatches leaf request (decodeForMatching request.path.bytes) · vars)).getD
          (false, vars))
      (indicesOf (((routes.map RouteConfig.path).map fold).map of) (·.listed landing))
      vars =
    StatefulFind.find (scanTurn leaf routes request) (List.range routes.length) vars := by
  have hk : ∀ {i : Nat} {route : RouteConfig L}, routes[i]? = some route →
      (((routes.map RouteConfig.path).map fold).map of)[i]?.any
          (fun kind => kind.listed landing) = (of (fold route.path)).listed landing := by
    intro i route hroute
    simp [List.getElem?_map, hroute]
  have hlen : (((routes.map RouteConfig.path).map fold).map of).length =
      routes.length := by simp
  have hget :
      ∀ i ∈ List.range routes.length, ∃ route, routes[i]? = some route ∧ route ∈ routes := by
    intro i hi
    have hlt := mem_range.mp hi
    exact ⟨routes[i], List.getElem?_eq_getElem hlt, getElem_mem hlt⟩
  rw [indicesOf, hlen]
  apply Eq.trans (StatefulFind.find_congr ?_ vars) (StatefulFind.find_filter ?_ vars)
  · intro i hi vars
    obtain ⟨hrg, hke⟩ := mem_filter.mp hi
    obtain ⟨route, hroute, hmem⟩ := hget i hrg
    rw [hk hroute] at hke
    rw [hroute]
    exact routeMatches_of_listed leaf request hland (how route hmem) hke hroute vars
  · intro i hi hdr vars
    obtain ⟨route, hroute, hmem⟩ := hget i hi
    rw [hk hroute] at hdr
    exact scanTurn_of_not_listed leaf request hland (how route hmem) hdr hroute vars

/-- The route chosen is the one a plain scan of all routes chooses. -/
theorem matchNormalizedRequest_eq_scan (radix : Radix (List Nat)) (leaf : LeafEvaluator L F Vars)
    (routes : List (RouteConfig L)) (hvalid : Router.validatePaths radix routes = true) :
    ∃ router, Router.new radix routes = some router ∧ ∀ request vars,
      (router.matchNormalizedRequest leaf request vars).1.map CompiledRoute.index =
        plainScan leaf routes request vars := by
  obtain ⟨t, htree⟩ := Option.isSome_iff_exists.mp hvalid
  obtain ⟨router, hnew⟩ : ∃ router, Router.new radix routes = some router := by
    rw [Router.new, htree]
    exact ⟨_, rfl⟩
  refine ⟨router, hnew, fun request vars => ?_⟩
  obtain ⟨l, hland, hcandidates⟩ :=
    nodeCandidates_eq hnew (fold (decodeForMatching request.path.bytes))
  have hcmp : ∀ i, router.compiledRoutes[i]? = (routes[i]?).map (Router.compileRoute · i) := by
    rw [Router.new, Option.map_eq_some_iff] at hnew
    obtain ⟨_, -, rfl⟩ := hnew
    exact fun i => List.getElem?_mapIdx
  have hp : router.candidates (decodeForMatching request.path.bytes) =
      router.nodeCandidates (fold (decodeForMatching request.path.bytes)) :=
    candidates_eq router ⟨_, valid_decodeForMatching request.path⟩
  rw [Router.matchNormalizedRequest, hp, hcandidates, StatefulFind.find_filterMap]
  simp only [hcmp]
  rw [find_candidates_eq leaf request routes hland (fun _ => registered_of_route) vars,
    StatefulFind.find_range, plainScan]
  -- the route at an index carries that index
  cases hfi : (List.range routes.length).find? fun i => (scanTurn leaf routes request i
      (StatefulFind.stateAt (scanTurn leaf routes request) vars i)).1 with
  | none => rfl
  | some i =>
    have hlt := mem_range.mp (mem_of_find?_eq_some hfi)
    simp [List.getElem?_eq_getElem hlt, Router.compileRoute]

/-- Exact, prefix and wildcard routes in one list, one with methods and one with a `host`
leaf. -/
theorem matchNormalizedRequest_eq_scan_sample : let routes : List (RouteConfig Bytes) :=
      [⟨ascii "/a/*x", none, none⟩, ⟨ascii "*.php", some [ascii "GET"], none⟩,
        ⟨ascii "/\x7bid\x7d/*", none, some (.leaf (ascii "example.com"))⟩,
        ⟨ascii "/Docs", none, none⟩, ⟨ascii "/*", none, none⟩]
    let l : LeafEvaluator Bytes Bytes Unit := fun host request vars =>
      (boolVerdict (eqIgnoreCase host request.facts), vars)
    ∃ router, Router.new (Entries.radix _) routes = some router ∧ ∀ request vars,
      (router.matchNormalizedRequest l request vars).1.map CompiledRoute.index =
        plainScan l routes request vars :=
  matchNormalizedRequest_eq_scan (Entries.radix _) _ _ (by decide)

end Pingclair
