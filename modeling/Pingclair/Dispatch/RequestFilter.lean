import Pingclair.Dispatch.Walk

/-!
# Before the walk

Before its handlers run, a request meets the site's variable rules, the choice of a route, and the
guards of that route: access rules and rate limits from anywhere in the tree, each with the matcher
of the element it is. All of these ask matchers about the path of the request.
-/

namespace Pingclair

open ByteText

variable {L A R H F Vars X : Type}

mutual

/-- The guards of a tree in the order of its elements, each with its own element's matcher. -/
def Handler.collectGuards {G : Type} (pick : LeafHandler A R H → Option G) :
    Handler L A R H → Option (Matcher L) → List (Option (Matcher L) × G)
  | .leaf handler, matcher => (pick handler).toList.map (matcher, ·)
  | .pipeline handlers, _ | .firstMatch handlers, _ | .handlePath _ handlers, _ =>
    handlers.collectGuards pick

def Elements.collectGuards {G : Type} (pick : LeafHandler A R H → Option G) :
    Elements L A R H → List (Option (Matcher L) × G)
  | .nil => []
  | .cons matcher handler rest => handler.collectGuards pick matcher ++ rest.collectGuards pick

end

def LeafHandler.accessPolicy : LeafHandler A R H → Option A
  | .accessControl policy => some policy
  | _ => none

def LeafHandler.limit : LeafHandler A R H → Option R
  | .rateLimit limit => some limit
  | _ => none

def collectAccessControlGuards (handler : Handler L A R H) : List (Option (Matcher L) × A) :=
  handler.collectGuards LeafHandler.accessPolicy none

def collectRateLimitGuards (handler : Handler L A R H) : List (Option (Matcher L) × R) :=
  handler.collectGuards LeafHandler.limit none

inductive AdmissionError where
  | queueFull
  | queueTimeout
  | upstreamCapacity
  | circuitOpen
  deriving DecidableEq

structure GuardLib (A R H F Vars X : Type) where
  allows : A → Context A R H F Vars X → Bool
  declaresTrailers : F → Bool
  /-- Charges a limiter: whether it refuses the request, and what it leaves. -/
  checkRequest : R → Context A R H F Vars X → Bool × X
  admitRoute : Context A R H F Vars X → Except AdmissionError X
  drainLocalRequestBody : Context A R H F Vars X → Option X

section

variable (d : Dispatcher L A R H F Vars X) (g : GuardLib A R H F Vars X)

/-- Applies access rules in order: `ok false` refuses the request, an error is raised. -/
def allowsAccess (path : Utf8.Str) :
    List (Option (Matcher L) × A) → Context A R H F Vars X →
      Except Nat Bool × Context A R H F Vars X
  | [], c => (.ok true, c)
  | (matcher, policy) :: rest, c =>
    match d.elementMatcherMatches matcher path c with
    | (.matched, c) =>
      let c := c.record (.consulted policy)
      if g.allows policy c then allowsAccess path rest c else (.ok false, c)
    | (.noMatch, c) => allowsAccess path rest c
    | (.error code, c) => (.error code, c)

/-- Charges the rate limits in order: `ok true` when one of them refused the request. -/
def chargeRateLimits (path : Utf8.Str) :
    List (Option (Matcher L) × R) → (rejected : Bool) → Context A R H F Vars X →
      Except Nat Bool × Context A R H F Vars X
  | [], rejected, c => (.ok rejected, c)
  | (matcher, limit) :: rest, rejected, c =>
    match d.elementMatcherMatches matcher path c with
    | (.matched, c) =>
      let c := c.record (.charged limit)
      let decision := g.checkRequest limit c
      chargeRateLimits path rest (rejected || decision.1) { c with other := decision.2 }
    | (.noMatch, c) => chargeRateLimits path rest rejected c
    | (.error code, c) => (.error code, c)

structure VarsRule (L A R H F Vars X : Type) where
  matcher : Option (Matcher L)
  values : Context A R H F Vars X → Vars

/-- A site: its variable rules, its router, and the handler of every route. -/
structure Site (L A R H F Vars X : Type) (radix : Radix (List Nat)) where
  varsRoutes : List (VarsRule L A R H F Vars X)
  router : Router L radix
  handlers : List (Handler L A R H)

def applyVarsRule (path : Utf8.Str) (c : Context A R H F Vars X)
    (rule : VarsRule L A R H F Vars X) : Context A R H F Vars X :=
  match d.elementMatcherMatches rule.matcher path c with
  | (.matched, c) => { c with vars := rule.values c }
  | (_, c) => c

inductive Answer where
  | notFound
  | forbidden
  | notImplemented
  | tooManyRequests
  | overloaded (error : AdmissionError)
  | undrained
  | raised (status : Nat)
  | walked (outcome : Outcome)
  deriving DecidableEq

/-- What a request waits for between the guards and the walk: a place at the upstreams, or the rest
of its body if the route has no reverse proxy. -/
def makeReady (handler : Handler L A R H) (c : Context A R H F Vars X) :
    Except Answer (Context A R H F Vars X) :=
  if handler.containsReverseProxy then
    match g.admitRoute c with
    | .ok other => .ok { c with other }
    | .error error => .error (.overloaded error)
  else
    match g.drainLocalRequestBody c with
    | some other => .ok { c with other }
    | none => .error .undrained

/-- The guards of a route, then the walk of its handlers. Trailers are refused in between. -/
def dispatch (handler : Handler L A R H) (path : Utf8.Str) (c : Context A R H F Vars X) :
    Answer × Context A R H F Vars X :=
  match allowsAccess d g path (collectAccessControlGuards handler) c with
  | (.error code, c) => (.raised code, c)
  | (.ok false, c) => (.forbidden, c)
  | (.ok true, c) =>
    if g.declaresTrailers c.facts then (.notImplemented, c)
    else
      match chargeRateLimits d g path (collectRateLimitGuards handler) false c with
      | (.error code, c) => (.raised code, c)
      | (.ok true, c) => (.tooManyRequests, c)
      | (.ok false, c) =>
        match makeReady g handler c with
        | .error answer => (answer, c)
        | .ok c =>
          let answer := handler.handleConfig d path c
          (.walked answer.1, answer.2)

def requestFilter {radix : Radix (List Nat)} (site : Site L A R H F Vars X radix)
    (c : Context A R H F Vars X) : Answer × Context A R H F Vars X :=
  let path := c.uri.path
  let c := site.varsRoutes.foldl (applyVarsRule d path) c
  let request := c.matcherRequest path
  let choice := site.router.matchNormalizedRequest d.leaf request c.vars
  let c := { c.record (.asked c.uri request) with vars := choice.2 }
  match choice.1.bind fun route => site.handlers[route.index]? with
  | none => (.notFound, c)
  | some handler => dispatch d g handler path c

end

/-! ### Paths that matchers are asked about -/

/-- Every path a matcher was asked about, and the one that is published, has no question mark. -/
structure Context.Clean (c : Context A R H F Vars X) : Prop where
  asked : ∀ uri request, Event.asked uri request ∈ c.trail → question ∉ request.path.bytes
  rewritten : ∀ path ∈ c.rewrittenPath, question ∉ path.bytes

section

variable {d : Dispatcher L A R H F Vars X} {g : GuardLib A R H F Vars X}
  {path : Utf8.Str} {c : Context A R H F Vars X}

theorem clean_record (hc : c.Clean) (ev : Event A R H F)
    (hevt : ∀ uri request, ev ≠ .asked uri request) : (c.record ev).Clean := by
  refine ⟨fun uri request hmem => ?_, hc.rewritten⟩
  rcases List.mem_append.mp hmem with hmem | hmem
  · exact hc.asked uri request hmem
  · exact absurd (List.mem_singleton.mp hmem).symm (hevt uri request)

variable {c' : Context A R H F Vars X}

theorem clean_applyRewrite {newUri : Utf8.Str} (hc : c.Clean)
    (h : d.applyRewrite newUri c = some c') : c'.Clean := by
  obtain ⟨uri, -, rfl⟩ := Option.map_eq_some_iff.mp h
  refine ⟨hc.asked, fun p hmem => ?_⟩
  cases hmem
  exact Target.pathPart_no_question newUri

theorem clean_runConfig (hc : c.Clean) (config : H) (path : Utf8.Str) :
    (d.runConfig config path c).2.Clean := by
  have hlf : ∀ result : LeafResult F Vars X, ({ c with
      errorStatus := result.errorStatus, method := result.method, facts := result.facts,
      vars := result.vars, other := result.other } : Context A R H F Vars X).Clean :=
    fun _ => ⟨hc.asked, hc.rewritten⟩
  rw [Dispatcher.runConfig]
  split
  · exact hlf _
  · split
    · next h => exact clean_applyRewrite (hlf _) h
    · exact hlf _

theorem clean_runLeaf (hc : c.Clean) (handler : LeafHandler A R H) (path : Utf8.Str) :
    (d.runLeaf handler path c).2.Clean := by
  have hrc : (c.record (.reached handler)).Clean := clean_record hc _ (by simp)
  cases handler with
  | accessControl p => exact hrc
  | rateLimit limit => exact hrc
  | fileServer config => exact clean_runConfig hrc config path
  | other config => exact clean_runConfig hrc config path
  | reverseProxy config f s =>
    have hbd (proxy : Option H) :
        ({ c.record (.reached (.reverseProxy config f s)) with
          proxy } : Context A R H F Vars X).Clean :=
      ⟨hrc.asked, hrc.rewritten⟩
    rw [Dispatcher.runLeaf]
    split
    · exact clean_runConfig (hbd _) config path
    · exact hbd _

/-- Waiting changes nothing that the walk reads. -/
theorem makeReady_eq_ok {handler : Handler L A R H} (h : makeReady g handler c = .ok c') :
    ∃ other, c' = { c with other } := by
  rw [makeReady] at h
  split at h
  · split at h
    · exact ⟨_, (Except.ok.inj h).symm⟩
    · cases h
  · split at h
    · exact ⟨_, (Except.ok.inj h).symm⟩
    · cases h

variable (hp : question ∉ path.bytes) (hc : c.Clean)

include hp hc

theorem clean_elementMatcherMatches
    (m : Option (Matcher L)) : (d.elementMatcherMatches m path c).2.Clean := by
  cases m with
  | none => exact hc
  | some m =>
    refine ⟨fun uri request hmem => ?_, hc.rewritten⟩
    rcases List.mem_append.mp hmem with hmem | hmem
    · exact hc.asked uri request hmem
    · cases List.mem_singleton.mp hmem
      exact hp

omit hp hc in
theorem kept_clean (leaves : List (LeafHandler A R H)) :
    Kept d leaves fun path c => question ∉ path.bytes ∧ c.Clean where
  asked hc matcher := ⟨hc.1, clean_elementMatcherMatches hc.1 hc.2 matcher⟩
  raised hc _ := ⟨hc.1, hc.2.asked, hc.2.rewritten⟩
  ran hc handler _ := ⟨hc.1, clean_runLeaf hc.2 handler _⟩
  handedOver hc hover := by
    obtain ⟨c', hrewrite, heq⟩ := Option.map_eq_some_iff.mp hover
    cases heq
    exact ⟨Target.pathPart_no_question _, clean_applyRewrite hc.2 hrewrite⟩
  resumed {_ c} hc := by
    refine ⟨?_, hc.2.asked, by simp⟩
    cases h : c.rewrittenPath with
    | none => exact c.uri.path_no_question
    | some path => exact hc.2.rewritten path h

/-- The walk asks matchers about paths without a question mark only. -/
theorem Handler.clean_handleConfig (handler : Handler L A R H) :
    (handler.handleConfig d path c).2.Clean := by
  obtain ⟨_, -, hclean⟩ :=
    (kept_clean handler.leaves).handleConfig handler (List.Subset.refl _) path c ⟨hp, hc⟩
  exact hclean

theorem clean_allowsAccess
    (guards : List (Option (Matcher L) × A)) : (allowsAccess d g path guards c).2.Clean := by
  induction guards generalizing c with
  | nil => exact hc
  | cons gr guards ih =>
    have hak := clean_elementMatcherMatches (d := d) hp hc gr.1
    rw [allowsAccess]
    split
    · next h =>
      rw [h] at hak
      have hrec := clean_record hak (.consulted gr.2) (by simp)
      dsimp only
      split
      · exact ih hrec
      · exact hrec
    · next h =>
      rw [h] at hak
      exact ih hak
    · next h =>
      rw [h] at hak
      exact hak

theorem clean_chargeRateLimits (guards : List (Option (Matcher L) × R)) (rejected : Bool) :
    (chargeRateLimits d g path guards rejected c).2.Clean := by
  induction guards generalizing c rejected with
  | nil => exact hc
  | cons gr guards ih =>
    have hak := clean_elementMatcherMatches (d := d) hp hc gr.1
    rw [chargeRateLimits]
    split
    · next h =>
      rw [h] at hak
      have hrec := clean_record hak (.charged gr.2) (by simp)
      refine ih ?_ _
      exact ⟨hrec.asked, hrec.rewritten⟩
    · next h =>
      rw [h] at hak
      exact ih hak rejected
    · next h =>
      rw [h] at hak
      exact hak

theorem clean_dispatch (handler : Handler L A R H) : (dispatch d g handler path c).2.Clean := by
  have hacs := clean_allowsAccess (d := d) (g := g) hp hc (collectAccessControlGuards handler)
  rw [dispatch]
  split
  · next h => rw [h] at hacs; exact hacs
  · next h => rw [h] at hacs; exact hacs
  · next c₁ h =>
    rw [h] at hacs
    have hlims := clean_chargeRateLimits (d := d) (g := g) hp hacs
      (collectRateLimitGuards handler) false
    split
    · exact hacs
    split
    · next h => rw [h] at hlims; exact hlims
    · next h => rw [h] at hlims; exact hlims
    · next c₂ h =>
      rw [h] at hlims
      split
      · exact hlims
      · next hready =>
        obtain ⟨other, rfl⟩ := makeReady_eq_ok hready
        refine Handler.clean_handleConfig hp ?_ handler
        exact ⟨hlims.asked, hlims.rewritten⟩

omit hp hc in
/-- No matcher is asked about a path with a question mark in it, before the walk or in it. -/
theorem clean_requestFilter {radix : Radix (List Nat)} (site : Site L A R H F Vars X radix)
    (hc : c.Clean) : (requestFilter d g site c).2.Clean := by
  have hp := c.uri.path_no_question
  have hrules : (site.varsRoutes.foldl (applyVarsRule d c.uri.path) c).Clean := by
    refine List.foldlRecOn (motive := Context.Clean) _ _ hc fun c hc rule _ => ?_
    have hak := clean_elementMatcherMatches (d := d) hp hc rule.matcher
    rw [applyVarsRule]
    split
    · next h =>
      rw [h] at hak
      exact ⟨hak.asked, hak.rewritten⟩
    · next h =>
      rw [h] at hak
      exact hak
  rw [requestFilter]
  generalize site.varsRoutes.foldl (applyVarsRule d c.uri.path) c = ruled at hrules ⊢
  have hcho : ∀ vars, ({ ruled.record (.asked ruled.uri (ruled.matcherRequest c.uri.path)) with
      vars := vars } : Context A R H F Vars X).Clean := by
    refine fun vars => ⟨fun uri request hmem => ?_, hrules.rewritten⟩
    rcases List.mem_append.mp hmem with hmem | hmem
    · exact hrules.asked uri request hmem
    · cases List.mem_singleton.mp hmem
      exact hp
  split
  · exact hcho _
  · exact clean_dispatch hp (hcho _) _

end

end Pingclair
