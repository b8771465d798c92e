import Pingclair.Dispatch.HandlePath
import Pingclair.Routing.Recorded

/-!
# File servers and the proxies beside them

A file server in a pipeline stands down for a reverse proxy, which takes the request after the
walk. The server looks for such a proxy at any depth, but it asks the proxies' own matchers only,
and all about one path: a proxy in a block that the walk does not enter makes the file server stand
down as well, and one that would accept what a `handle_path` block hands on may not.
-/

namespace Pingclair

variable {L A R H F Vars X : Type}

def Dispatcher.Accepts (d : Dispatcher L A R H F Vars X) (matcher : Option (Matcher L))
    (path : Utf8.Str) (c : Context A R H F Vars X) : Prop :=
  (d.elementMatcherMatches matcher path c).1 = .matched

/-- What stands between a pipeline and a proxy somewhere inside it. -/
inductive Gate (L : Type) where
  | enclosing (matcher : Option (Matcher L))
  /-- A branch before that of the proxy, in a group whose first match owns the request. -/
  | earlier (matcher : Option (Matcher L))
  | strip (pre : Utf8.Str)

def Gate.isStrip : Gate L → Bool
  | .strip _ => true
  | .enclosing _ | .earlier _ => false

/-- A proxy inside a pipeline: what is around it, from the outside in, and its own matcher. -/
structure ProxyPlace (L : Type) where
  gates : List (Gate L)
  matcher : Option (Matcher L)

def ProxyPlace.behind (gate : Gate L) (place : ProxyPlace L) : ProxyPlace L :=
  { place with gates := gate :: place.gates }

mutual

def Elements.httpProxies : Elements L A R H → (exclusive : Bool) → List (ProxyPlace L)
  | .nil, _ => []
  | .cons matcher handler rest, exclusive =>
    handler.httpProxies matcher ++
      if exclusive then (rest.httpProxies exclusive).map (.behind (.earlier matcher))
      else rest.httpProxies exclusive

def Handler.httpProxies : Handler L A R H → Option (Matcher L) → List (ProxyPlace L)
  | .leaf (.reverseProxy _ false _), matcher => [⟨[], matcher⟩]
  | .leaf _, _ => []
  | .pipeline handlers, matcher => (handlers.httpProxies false).map (.behind (.enclosing matcher))
  | .firstMatch handlers, matcher => (handlers.httpProxies true).map (.behind (.enclosing matcher))
  | .handlePath pre handlers, matcher =>
    ((handlers.httpProxies true).map (.behind (.strip pre))).map (.behind (.enclosing matcher))

end

/-- A request gets through gates to a proxy, whose own matcher accepts it there. -/
def Dispatcher.Passes (d : Dispatcher L A R H F Vars X) (matcher : Option (Matcher L)) :
    List (Gate L) → Utf8.Str → Context A R H F Vars X → Prop
  | [], path, c => d.Accepts matcher path c
  | .enclosing around :: gates, path, c => d.Accepts around path c ∧ d.Passes matcher gates path c
  | .earlier branch :: gates, path, c => ¬ d.Accepts branch path c ∧ d.Passes matcher gates path c
  | .strip pre :: gates, path, c =>
    ∃ handed, d.handOver pre path c = some handed ∧ d.Passes matcher gates handed.1 handed.2

def ProxyPlace.Takes (d : Dispatcher L A R H F Vars X) (place : ProxyPlace L) (path : Utf8.Str)
    (c : Context A R H F Vars X) : Prop :=
  d.Passes place.matcher place.gates path c

def Elements.Taken (d : Dispatcher L A R H F Vars X) (all : Elements L A R H) (path : Utf8.Str)
    (c : Context A R H F Vars X) : Prop :=
  ∃ place ∈ all.httpProxies false, place.Takes d path c

/-- The request as it stood, but for what some matchers may have recorded. -/
structure SeenAs (d : Dispatcher L A R H F Vars X) (matchers : List (Matcher L)) (path : Utf8.Str)
    (c₀ c : Context A R H F Vars X) : Prop where
  request : c.matcherRequest path = c₀.matcherRequest path
  recorded : Recorded d.leaf matchers {c₀.matcherRequest path} c₀.vars c.vars

section

variable {d : Dispatcher L A R H F Vars X} {matchers : List (Matcher L)} {path : Utf8.Str}
  {c₀ c : Context A R H F Vars X}

theorem SeenAs.ask (h : SeenAs d matchers path c₀ c)
    (hsteady : Steady d.leaf matchers {c₀.matcherRequest path} c₀.vars)
    {m : Option (Matcher L)} (hm : ∀ own ∈ m, own ∈ matchers) :
    (d.elementMatcherMatches m path c).1 = (d.elementMatcherMatches m path c₀).1 ∧
      SeenAs d matchers path c₀ (d.elementMatcherMatches m path c).2 := by
  cases m with
  | none => exact ⟨rfl, h⟩
  | some own =>
    have hown : own ∈ matchers := hm own rfl
    refine ⟨?_, h.request, ?_⟩
    · rw [Dispatcher.elementMatcherMatches, Dispatcher.elementMatcherMatches, h.request]
      exact hsteady _ h.recorded own hown _ rfl
    · rw [Dispatcher.elementMatcherMatches, h.request]
      exact h.recorded.asked hown rfl

@[simp] theorem matcher_behind (gate : Gate L) (place : ProxyPlace L) :
    (place.behind gate).matcher = place.matcher :=
  rfl

mutual

/-- The search finds a proxy exactly if one accepts the request with its own matcher. -/
theorem Elements.hasMatchingHttpProxy_spec
    (hsteady : Steady d.leaf matchers {c₀.matcherRequest path} c₀.vars) :
    (els : Elements L A R H) → (exclusive : Bool) → (c : Context A R H F Vars X) →
    (∀ place ∈ els.httpProxies exclusive, ∀ own ∈ place.matcher, own ∈ matchers) →
    SeenAs d matchers path c₀ c →
      ((els.hasMatchingHttpProxy d path c).1 = true ↔
        ∃ place ∈ els.httpProxies exclusive, d.Accepts place.matcher path c₀) ∧
      SeenAs d matchers path c₀ (els.hasMatchingHttpProxy d path c).2
  | .nil, _, _, _, hc => by simpa [Elements.hasMatchingHttpProxy, Elements.httpProxies] using hc
  | .cons m handler rest, exclusive, c, hown, hc => by
    rw [Elements.httpProxies] at hown ⊢
    have hrestOwn : ∀ place ∈ rest.httpProxies exclusive, ∀ own ∈ place.matcher,
        own ∈ matchers := by
      intro place hplace
      cases exclusive with
      | false => exact hown place (List.mem_append_right _ hplace)
      | true =>
        exact hown (place.behind (.earlier m))
          (List.mem_append_right _ (List.mem_map_of_mem hplace))
    obtain ⟨hiff, hseen⟩ := handler.hasMatchingHttpProxy_spec hsteady m c
      (fun place hplace => hown place (List.mem_append_left _ hplace)) hc
    have hlater (p : Option (Matcher L) → Prop) :
        (∃ place ∈ if exclusive then (rest.httpProxies exclusive).map (.behind (.earlier m))
          else rest.httpProxies exclusive, p place.matcher) ↔
        ∃ place ∈ rest.httpProxies exclusive, p place.matcher := by
      cases exclusive <;> simp
    simp only [List.mem_append, or_and_right, exists_or, ← hiff,
      hlater (d.Accepts · path c₀)]
    rw [Elements.hasMatchingHttpProxy]
    rcases hfound : handler.hasMatchingHttpProxy d m path c with ⟨_ | _, c'⟩ <;>
      rw [hfound] at hseen
    · simpa using rest.hasMatchingHttpProxy_spec hsteady exclusive c' hrestOwn hseen
    · exact ⟨by simp, hseen⟩

theorem Handler.hasMatchingHttpProxy_spec
    (hsteady : Steady d.leaf matchers {c₀.matcherRequest path} c₀.vars) :
    (handler : Handler L A R H) → (m : Option (Matcher L)) → (c : Context A R H F Vars X) →
    (∀ place ∈ handler.httpProxies m, ∀ own ∈ place.matcher, own ∈ matchers) →
    SeenAs d matchers path c₀ c →
      ((handler.hasMatchingHttpProxy d m path c).1 = true ↔
        ∃ place ∈ handler.httpProxies m, d.Accepts place.matcher path c₀) ∧
      SeenAs d matchers path c₀ (handler.hasMatchingHttpProxy d m path c).2
  | .leaf (.reverseProxy _ false _), m, c, hown, hc => by
    obtain ⟨hverdict, hseen⟩ := hc.ask hsteady (m := m) fun own hm =>
      hown ⟨[], m⟩ (by simp [Handler.httpProxies]) own hm
    refine ⟨?_, hseen⟩
    simp [Handler.hasMatchingHttpProxy, Handler.httpProxies, Dispatcher.Accepts, hverdict]
  | .leaf (.reverseProxy _ true _), _, _, _, hc | .leaf (.accessControl _), _, _, _, hc
  | .leaf (.rateLimit _), _, _, _, hc | .leaf (.fileServer _), _, _, _, hc
  | .leaf (.other _), _, _, _, hc => by
    simpa [Handler.hasMatchingHttpProxy, Handler.httpProxies] using hc
  | .pipeline handlers, m, c, hown, hc => by
    simp only [Handler.hasMatchingHttpProxy, Handler.httpProxies, List.mem_map,
      exists_exists_and_eq_and, matcher_behind]
    exact handlers.hasMatchingHttpProxy_spec hsteady false c (fun place hplace =>
      hown (place.behind (.enclosing m)) (List.mem_map_of_mem hplace)) hc
  | .firstMatch handlers, m, c, hown, hc => by
    simp only [Handler.hasMatchingHttpProxy, Handler.httpProxies, List.mem_map,
      exists_exists_and_eq_and, matcher_behind]
    exact handlers.hasMatchingHttpProxy_spec hsteady true c (fun place hplace =>
      hown (place.behind (.enclosing m)) (List.mem_map_of_mem hplace)) hc
  | .handlePath pre handlers, m, c, hown, hc => by
    simp only [Handler.hasMatchingHttpProxy, Handler.httpProxies, List.mem_map,
      exists_exists_and_eq_and, matcher_behind]
    exact handlers.hasMatchingHttpProxy_spec hsteady true c (fun place hplace =>
      hown ((place.behind (.strip pre)).behind (.enclosing m))
        (List.mem_map_of_mem (List.mem_map_of_mem hplace))) hc

end

/-- Where no prefix is cut off on the way to it, a proxy that would take a request accepts it as it
is. -/
theorem ProxyPlace.Takes.accepts {place : ProxyPlace L}
    (hstrip : ∀ gate ∈ place.gates, gate.isStrip = false) (h : place.Takes d path c) :
    d.Accepts place.matcher path c := by
  obtain ⟨gates, matcher⟩ := place
  rw [Takes] at h
  induction gates with
  | nil => exact h
  | cons gate gates ih =>
    have hgates := (List.forall_mem_cons.mp hstrip).2
    cases gate with
    | enclosing around => exact ih hgates h.2
    | earlier branch => exact ih hgates h.2
    | strip pre => exact absurd (hstrip _ List.mem_cons_self) (by simp [Gate.isStrip])

end

namespace ApiBlock

end ApiBlock

end Pingclair
