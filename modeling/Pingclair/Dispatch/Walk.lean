import Pingclair.Dispatch.Target
import Pingclair.Routing.Router

/-!
# The handler walk

Over HTTP/1 and HTTP/2 the server walks the tree of a route's handlers: a pipeline runs its elements
until one answers, a first-match group hands the request to the first element whose matcher accepts
it, and a `handle_path` group does so after cutting its prefix off. A rewrite changes the path that
later matchers see.

The `trail` of a context records the matcher requests and the leaf handlers; nothing reads it. What
leaf handlers do is a parameter, but they change the target in one way only.
-/

namespace Pingclair

open ByteText

/-- A handler without elements. `A` and `R` are access policies and rate limits, `H` other
configurations. -/
inductive LeafHandler (A R H : Type) where
  | accessControl (policy : A)
  | rateLimit (limit : R)
  | fileServer (config : H)
  | reverseProxy (config : H) (fastcgi subrequest : Bool)
  | other (config : H)

mutual

inductive Handler (L A R H : Type) where
  | leaf (handler : LeafHandler A R H)
  | pipeline (handlers : Elements L A R H)
  | firstMatch (handlers : Elements L A R H)
  | handlePath (pre : Utf8.Str) (handlers : Elements L A R H)

inductive Elements (L A R H : Type) where
  | nil
  | cons (matcher : Option (Matcher L)) (handler : Handler L A R H) (rest : Elements L A R H)

end

inductive Event (A R H F : Type) where
  | asked (uri : Target) (request : MatcherRequest F)
  | consulted (policy : A)
  | charged (limit : R)
  | reached (handler : LeafHandler A R H)

/-- A request on its way through the server. `other` is what neither matchers nor the walk
read. -/
structure Context (A R H F Vars X : Type) where
  uri : Target
  rewrittenPath : Option Utf8.Str
  errorStatus : Option Nat
  method : Bytes
  facts : F
  vars : Vars
  proxy : Option H
  other : X
  trail : List (Event A R H F)

variable {L A R H F Vars X : Type}

inductive Outcome where
  | handled
  | passed
  | failed
  deriving DecidableEq

/-- What a leaf handler leaves. `rewrite` is the new target, when there is one. -/
structure LeafResult (F Vars X : Type) where
  outcome : Outcome
  rewrite : Option Utf8.Str
  errorStatus : Option Nat
  method : Bytes
  facts : F
  vars : Vars
  other : X

structure Dispatcher (L A R H F Vars X : Type) where
  targets : TargetLib
  leaf : LeafEvaluator L F Vars
  run : H → Utf8.Str → Context A R H F Vars X → LeafResult F Vars X

namespace Context

def matcherRequest (c : Context A R H F Vars X) (path : Utf8.Str) : MatcherRequest F :=
  { path, method := c.method, facts := c.facts }

def record (c : Context A R H F Vars X) (event : Event A R H F) : Context A R H F Vars X :=
  { c with trail := c.trail ++ [event] }

end Context

namespace Dispatcher

variable (d : Dispatcher L A R H F Vars X)

def elementMatcherMatches (matcher : Option (Matcher L)) (path : Utf8.Str)
    (c : Context A R H F Vars X) : MatcherVerdict × Context A R H F Vars X :=
  match matcher with
  | none => (.matched, c)
  | some matcher =>
    let request := c.matcherRequest path
    let answer := evaluateNode d.leaf request (MatcherNode.compile matcher) c.vars
    (answer.1, { c.record (.asked c.uri request) with vars := answer.2 })

def applyRewrite (newUri : Utf8.Str) (c : Context A R H F Vars X) :
    Option (Context A R H F Vars X) :=
  (d.targets.parse newUri).map fun uri =>
    { c with uri, rewrittenPath := some (Target.pathPart newUri) }

def runConfig (config : H) (path : Utf8.Str) (c : Context A R H F Vars X) :
    Outcome × Context A R H F Vars X :=
  let result := d.run config path c
  let c := { c with
    errorStatus := result.errorStatus, method := result.method, facts := result.facts,
    vars := result.vars, other := result.other }
  match result.rewrite with
  | none => (result.outcome, c)
  | some newUri =>
    match d.applyRewrite newUri c with
    | some c => (result.outcome, c)
    | none => (.failed, c)

/-- What a `handle_path` group hands to its elements: the path and the request without a prefix. -/
def handOver (pre path : Utf8.Str) (c : Context A R H F Vars X) :
    Option (Utf8.Str × Context A R H F Vars X) :=
  let rewritten :=
    if (stripPathPrefix path pre).isSome then rewriteUri c.uri.text (some pre) none none none
    else c.uri.text
  (d.applyRewrite rewritten c).map fun c => (Target.pathPart rewritten, c)

/-- A leaf handler. The two kinds of guard have done their work before the walk; a reverse proxy
is bound to take the request after it, unless it is asked inline. A proxy for a subrequest is none
of those that can be bound. -/
def runLeaf (handler : LeafHandler A R H) (path : Utf8.Str) (c : Context A R H F Vars X) :
    Outcome × Context A R H F Vars X :=
  let c := c.record (.reached handler)
  match handler with
  | .accessControl _ | .rateLimit _ => (.passed, c)
  | .fileServer config | .other config => d.runConfig config path c
  | .reverseProxy config fastcgi subrequest =>
    let c := { c with proxy := if subrequest then none else some config }
    if fastcgi || subrequest then d.runConfig config path c else (.passed, c)

end Dispatcher

def Handler.isFileServer : Handler L A R H → Bool
  | .leaf (.fileServer _) => true
  | _ => false

mutual

def Handler.containsReverseProxy : Handler L A R H → Bool
  | .leaf (.reverseProxy _ _ subrequest) => !subrequest
  | .leaf _ => false
  | .pipeline handlers | .firstMatch handlers | .handlePath _ handlers =>
    handlers.containsReverseProxy

def Elements.containsReverseProxy : Elements L A R H → Bool
  | .nil => false
  | .cons _ handler rest => handler.containsReverseProxy || rest.containsReverseProxy

end

mutual

/-- Whether some proxy of a group would take the request, by its own matcher. -/
def Elements.hasMatchingHttpProxy (d : Dispatcher L A R H F Vars X) :
    Elements L A R H → Utf8.Str → Context A R H F Vars X → Bool × Context A R H F Vars X
  | .nil, _, c => (false, c)
  | .cons matcher handler rest, path, c =>
    match handler.hasMatchingHttpProxy d matcher path c with
    | (true, c) => (true, c)
    | (false, c) => rest.hasMatchingHttpProxy d path c

def Handler.hasMatchingHttpProxy (d : Dispatcher L A R H F Vars X) :
    Handler L A R H → Option (Matcher L) → Utf8.Str → Context A R H F Vars X →
      Bool × Context A R H F Vars X
  | .leaf (.reverseProxy _ false _), matcher, path, c =>
    let answer := d.elementMatcherMatches matcher path c
    (answer.1 = .matched, answer.2)
  | .leaf _, _, _, c => (false, c)
  | .pipeline handlers, _, path, c | .firstMatch handlers, _, path, c
  | .handlePath _ handlers, _, path, c => handlers.hasMatchingHttpProxy d path c

end

/-- Whether a file server of a pipeline stands down for a proxy beside it. This is asked once. -/
def Elements.shadowed (d : Dispatcher L A R H F Vars X) (all : Elements L A R H)
    (known : Option Bool) (path : Utf8.Str) (c : Context A R H F Vars X) :
    Bool × Context A R H F Vars X :=
  match known with
  | some value => (value, c)
  | none => all.hasMatchingHttpProxy d path c

/-- Whether a handler of a pipeline stands down, and what is known of the proxies beside it. -/
def Elements.standsDown (d : Dispatcher L A R H F Vars X) (all : Elements L A R H)
    (handler : Handler L A R H) (known : Option Bool) (path : Utf8.Str)
    (c : Context A R H F Vars X) : Bool × Option Bool × Context A R H F Vars X :=
  if handler.isFileServer then
    let answer := all.shadowed d known path c
    (answer.1, some answer.1, answer.2)
  else (false, known, c)

section Asking

variable {d : Dispatcher L A R H F Vars X} {path : Utf8.Str}
  {I : Context A R H F Vars X → Prop}

mutual

/-- What asking a matcher keeps is kept when the proxies of a group are asked. -/
theorem Elements.hasMatchingHttpProxy_keeps
    (hak : ∀ m c, I c → I (d.elementMatcherMatches m path c).2) :
    (els : Elements L A R H) → (c : Context A R H F Vars X) → I c →
      I (els.hasMatchingHttpProxy d path c).2
  | .nil, _, hc => hc
  | .cons m handler rest, c, hc => by
    have hh := handler.hasMatchingHttpProxy_keeps hak m c hc
    rw [Elements.hasMatchingHttpProxy]
    split
    · next c' heq => rwa [heq] at hh
    · next c' heq =>
      rw [heq] at hh
      exact rest.hasMatchingHttpProxy_keeps hak c' hh

theorem Handler.hasMatchingHttpProxy_keeps
    (hak : ∀ m c, I c → I (d.elementMatcherMatches m path c).2) :
    (handler : Handler L A R H) → (m : Option (Matcher L)) →
    (c : Context A R H F Vars X) → I c → I (handler.hasMatchingHttpProxy d m path c).2
  | .leaf (.reverseProxy _ false _), m, c, hc => hak m c hc
  | .leaf (.reverseProxy _ true _), _, _, hc | .leaf (.accessControl _), _, _, hc
  | .leaf (.rateLimit _), _, _, hc | .leaf (.fileServer _), _, _, hc
  | .leaf (.other _), _, _, hc => hc
  | .pipeline handlers, _, c, hc | .firstMatch handlers, _, c, hc
  | .handlePath _ handlers, _, c, hc => by
    rw [Handler.hasMatchingHttpProxy]
    exact handlers.hasMatchingHttpProxy_keeps hak c hc

end

theorem Elements.standsDown_keeps (hak : ∀ m c, I c → I (d.elementMatcherMatches m path c).2)
    (all : Elements L A R H) (handler : Handler L A R H) (kn : Option Bool)
    {c : Context A R H F Vars X} (hc : I c) : I (all.standsDown d handler kn path c).2.2 := by
  rw [standsDown]
  split
  · cases kn with
    | some value => exact hc
    | none => exact all.hasMatchingHttpProxy_keeps hak c hc
  · exact hc

end Asking

mutual

def Handler.handleConfig (d : Dispatcher L A R H F Vars X) :
    Handler L A R H → Utf8.Str → Context A R H F Vars X → Outcome × Context A R H F Vars X
  | .leaf handler, path, c => d.runLeaf handler path c
  | .pipeline handlers, path, c => handlers.runPipeline d handlers none path c
  | .firstMatch handlers, path, c =>
    handlers.runFirstMatch d handlers.containsReverseProxy path c
  | .handlePath pre handlers, path, c =>
    let current := c.uri.text
    let rewritten :=
      if (stripPathPrefix path pre).isSome then rewriteUri current (some pre) none none none
      else current
    match d.applyRewrite rewritten c with
    | some c => handlers.runFirstMatch d false (Target.pathPart rewritten) c
    | none => (.failed, c)

/-- The elements of a pipeline that are left. `all` are the elements of the whole pipeline, and
`known` whether a proxy among them shadows a file server, once that was asked. -/
def Elements.runPipeline (d : Dispatcher L A R H F Vars X) :
    Elements L A R H → (all : Elements L A R H) → (known : Option Bool) → Utf8.Str →
      Context A R H F Vars X → Outcome × Context A R H F Vars X
  | .nil, _, _, _, c => (.passed, c)
  | .cons matcher handler rest, all, known, path, c =>
    match d.elementMatcherMatches matcher path c with
    | (.noMatch, c) => rest.runPipeline d all known path c
    | (.error code, c) => (.handled, { c with errorStatus := some code })
    | (.matched, c) =>
      match all.standsDown d handler known path c with
      | (true, known, c) => rest.runPipeline d all known path c
      | (false, known, c) =>
        match handler.handleConfig d path c with
        | (.passed, c) =>
          rest.runPipeline d all known (c.rewrittenPath.getD c.uri.path)
            { c with rewrittenPath := none }
        | answer => answer

def Elements.runFirstMatch (d : Dispatcher L A R H F Vars X) :
    Elements L A R H → (hasProxy : Bool) → Utf8.Str → Context A R H F Vars X →
      Outcome × Context A R H F Vars X
  | .nil, _, _, c => (.passed, c)
  | .cons matcher handler rest, hasProxy, path, c =>
    match d.elementMatcherMatches matcher path c with
    | (.noMatch, c) => rest.runFirstMatch d hasProxy path c
    | (.error code, c) => (.handled, { c with errorStatus := some code })
    | (.matched, c) =>
      if hasProxy && handler.isFileServer then rest.runFirstMatch d hasProxy path c
      else handler.handleConfig d path c

end

theorem handleConfig_handlePath (d : Dispatcher L A R H F Vars X) (pre : Utf8.Str)
    (handlers : Elements L A R H) (path : Utf8.Str) (c : Context A R H F Vars X) :
    (Handler.handlePath pre handlers).handleConfig d path c =
      match d.handOver pre path c with
      | some (path, c) => handlers.runFirstMatch d false path c
      | none => (.failed, c) := by
  rw [Handler.handleConfig, Dispatcher.handOver]
  generalize (if (stripPathPrefix path pre).isSome then _ else _ : Utf8.Str) = rewritten
  cases d.applyRewrite rewritten c <;> rfl

mutual

def Handler.leaves : Handler L A R H → List (LeafHandler A R H)
  | .leaf handler => [handler]
  | .pipeline handlers | .firstMatch handlers | .handlePath _ handlers => handlers.leaves

def Elements.leaves : Elements L A R H → List (LeafHandler A R H)
  | .nil => []
  | .cons _ handler rest => handler.leaves ++ rest.leaves

end

/-- A property of the path and the request that every step of a walk keeps which runs only some leaf
handlers. -/
structure Kept (d : Dispatcher L A R H F Vars X) (leaves : List (LeafHandler A R H))
    (I : Utf8.Str → Context A R H F Vars X → Prop) : Prop where
  asked : ∀ {path c}, I path c → ∀ matcher, I path (d.elementMatcherMatches matcher path c).2
  raised : ∀ {path c}, I path c → ∀ code, I path { c with errorStatus := some code }
  ran : ∀ {path c}, I path c → ∀ handler ∈ leaves, I path (d.runLeaf handler path c).2
  handedOver : ∀ {path c pre path' c'}, I path c → d.handOver pre path c = some (path', c') →
    I path' c'
  resumed : ∀ {path c}, I path c →
    I (c.rewrittenPath.getD c.uri.path) { c with rewrittenPath := none }

section Kept

variable {d : Dispatcher L A R H F Vars X} {leaves : List (LeafHandler A R H)}
  {I : Utf8.Str → Context A R H F Vars X → Prop}

mutual

theorem Kept.handleConfig (kept : Kept d leaves I) : (handler : Handler L A R H) →
    handler.leaves ⊆ leaves → (path : Utf8.Str) → (c : Context A R H F Vars X) → I path c →
      ∃ path', I path' (handler.handleConfig d path c).2
  | .leaf handler, hsub, path, c, hc =>
    ⟨path, kept.ran hc handler (hsub (by simp [Handler.leaves]))⟩
  | .pipeline handlers, hsub, path, c, hc => kept.runPipeline handlers hsub handlers none path c hc
  | .firstMatch handlers, hsub, path, c, hc => kept.runFirstMatch handlers hsub _ path c hc
  | .handlePath pre handlers, hsub, path, c, hc => by
    rw [handleConfig_handlePath]
    cases hover : d.handOver pre path c with
    | none => exact ⟨path, hc⟩
    | some handed => exact kept.runFirstMatch handlers hsub _ _ _ (kept.handedOver hc hover)

theorem Kept.runPipeline (kept : Kept d leaves I) : (rest : Elements L A R H) →
    rest.leaves ⊆ leaves → (all : Elements L A R H) → (known : Option Bool) →
    (path : Utf8.Str) → (c : Context A R H F Vars X) → I path c →
      ∃ path', I path' (rest.runPipeline d all known path c).2
  | .nil, _, _, _, path, _, hc => ⟨path, hc⟩
  | .cons matcher handler rest, hsub, all, known, path, c, hc => by
    obtain ⟨hhandler, hrest⟩ := List.append_subset.mp hsub
    have hasked := kept.asked hc matcher
    rw [Elements.runPipeline]
    generalize d.elementMatcherMatches matcher path c = asked at hasked ⊢
    obtain ⟨_ | _ | code, c1⟩ := asked
    · have hdown := all.standsDown_keeps (I := I path) (fun m c hc => kept.asked hc m) handler known
        hasked
      dsimp only
      generalize all.standsDown d handler known path c1 = after at hdown ⊢
      obtain ⟨_ | _, known', c2⟩ := after
      · have hran := kept.handleConfig handler hhandler path c2 hdown
        dsimp only
        generalize handler.handleConfig d path c2 = ran at hran ⊢
        obtain ⟨path', hran⟩ := hran
        obtain ⟨_ | _ | _, c3⟩ := ran
        · exact ⟨path', hran⟩
        · exact kept.runPipeline rest hrest all known' _ _ (kept.resumed hran)
        · exact ⟨path', hran⟩
      · exact kept.runPipeline rest hrest all known' path c2 hdown
    · exact kept.runPipeline rest hrest all known path c1 hasked
    · exact ⟨path, kept.raised hasked code⟩

theorem Kept.runFirstMatch (kept : Kept d leaves I) : (rest : Elements L A R H) →
    rest.leaves ⊆ leaves → (hasProxy : Bool) → (path : Utf8.Str) →
    (c : Context A R H F Vars X) → I path c →
      ∃ path', I path' (rest.runFirstMatch d hasProxy path c).2
  | .nil, _, _, path, _, hc => ⟨path, hc⟩
  | .cons matcher handler rest, hsub, hasProxy, path, c, hc => by
    obtain ⟨hhandler, hrest⟩ := List.append_subset.mp hsub
    have hasked := kept.asked hc matcher
    rw [Elements.runFirstMatch]
    generalize d.elementMatcherMatches matcher path c = asked at hasked ⊢
    obtain ⟨_ | _ | code, c1⟩ := asked
    · dsimp only
      split
      · exact kept.runFirstMatch rest hrest hasProxy path c1 hasked
      · exact kept.handleConfig handler hhandler path c1 hasked
    · exact kept.runFirstMatch rest hrest hasProxy path c1 hasked
    · exact ⟨path, kept.raised hasked code⟩

end

end Kept

end Pingclair
