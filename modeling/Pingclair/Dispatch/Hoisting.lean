import Pingclair.Dispatch.Course

/-!
# Hoisted guards

Access rules and rate limits are applied before the walk, each by the matcher of its own element and
on the request as it came. The walk may never get to such an element, or may get there with another
path than the one that was asked about.
-/

namespace Pingclair

open ByteText List

variable {L A R H F Vars X G : Type}

namespace Dispatcher

variable (d : Dispatcher L A R H F Vars X)

variable {d}

end Dispatcher

section Filter

variable (d : Dispatcher L A R H F Vars X) (g : GuardLib A R H F Vars X) (path : Utf8.Str)
  (c : Context A R H F Vars X)

def Context.guards : List (A ⊕ R) :=
  c.trail.filterMap fun
    | .consulted policy => some (.inl policy)
    | .charged limit => some (.inr limit)
    | _ => none

end Filter

/-! ### Guards on the course of a request -/

section Course

variable {o : Outlook L A R H} {guard : A ⊕ R}

/-- One of these leaf handlers is a guard that the matcher of its own element accepts. -/
def Outlook.Accepts (o : Outlook L A R H) (guard : A ⊕ R)
    (leaves : List (Option (Matcher L) × LeafHandler A R H)) : Prop :=
  ∃ leaf ∈ leaves, leaf.2.guard = some guard ∧ o.verdict leaf.1 (.leaf leaf.2) = .matched

theorem Outlook.Accepts.mono {leaves more : List (Option (Matcher L) × LeafHandler A R H)}
    (h : o.Accepts guard leaves) (hsub : leaves ⊆ more) : o.Accepts guard more := by
  obtain ⟨leaf, hmem, haccepted⟩ := h
  exact ⟨leaf, hsub hmem, haccepted⟩

theorem guardsOf_append (tasks later : List (Task L A R H)) :
    guardsOf (tasks ++ later) = guardsOf tasks ++ guardsOf later :=
  filterMap_append

theorem guardsOf_askTasks (matcher : Option (Matcher L)) (handler : Handler L A R H)
    (all : Elements L A R H) (known : Bool) :
    guardsOf (askTasks matcher handler all known) = [] := by
  rw [askTasks]
  split <;> rfl

mutual

/-- Guards on a course are accepted by the matchers of their own elements. -/
theorem Handler.accepts_of_course : (handler : Handler L A R H) → (own : Option (Matcher L)) →
    (∀ leaf, handler = .leaf leaf → handler.hasGuard = true → o.verdict own handler = .matched) →
    (more : Bool) → guard ∈ guardsOf (handler.course o more).tasks →
      o.Accepts guard (handler.collectGuards some own)
  | .leaf leaf, own, hown, _, h => by
    have hguard : leaf.guard = some guard := by simpa [guardsOf, Handler.course] using h
    exact ⟨(own, leaf), by simp [Handler.collectGuards], hguard,
      hown leaf rfl (by simp [Handler.hasGuard, Handler.leaves, hguard])⟩
  | .pipeline handlers, _, _, more, h => handlers.accepts_of_coursePipeline more handlers false h
  | .firstMatch handlers, _, _, more, h => handlers.accepts_of_courseFirstMatch more _ h
  | .handlePath pre handlers, _, _, more, h => by
    rw [Handler.course] at h
    split at h
    · exact handlers.accepts_of_courseFirstMatch more false h
    · cases h

theorem Elements.accepts_of_coursePipeline : (rest : Elements L A R H) → (more : Bool) →
    (all : Elements L A R H) → (known : Bool) →
    guard ∈ guardsOf (rest.coursePipeline o more all known).tasks →
      o.Accepts guard (rest.collectGuards some)
  | .nil, _, _, _, h => by cases h
  | .cons own handler rest, more, all, known, h => by
    have hlater {known : Bool}
        (h : guard ∈ guardsOf (rest.coursePipeline o more all known).tasks) :=
      (rest.accepts_of_coursePipeline more all known h).mono
        (subset_append_right (handler.collectGuards some own) _)
    have hhere {more : Bool} (hverdict : o.verdict own handler = .matched)
        (h : guard ∈ guardsOf (handler.course o more).tasks) :=
      (handler.accepts_of_course own (fun _ _ _ => hverdict) more h).mono
        (subset_append_left _ (rest.collectGuards some))
    rw [Elements.coursePipeline] at h
    split at h
    · cases h
    split at h
    · exact hlater h
    · cases h
    · next hverdict =>
      dsimp only at h
      split at h
      · simp only [Course.behind, guardsOf_append, guardsOf_askTasks, nil_append] at h
        exact hlater h
      split at h
      · simp only [Course.behind, guardsOf_append, guardsOf_askTasks, nil_append, append_assoc,
          mem_append] at h
        rcases h with h | h | h
        · exact hhere hverdict h
        · cases h
        · exact hlater h
      · simp only [guardsOf_append, guardsOf_askTasks, nil_append] at h
        exact hhere hverdict h

theorem Elements.accepts_of_courseFirstMatch : (rest : Elements L A R H) → (more hasProxy : Bool) →
    guard ∈ guardsOf (rest.courseFirstMatch o more hasProxy).tasks →
      o.Accepts guard (rest.collectGuards some)
  | .nil, _, _, h => by cases h
  | .cons own handler rest, more, hasProxy, h => by
    have hlater (h : guard ∈ guardsOf (rest.courseFirstMatch o more hasProxy).tasks) :=
      (rest.accepts_of_courseFirstMatch more hasProxy h).mono
        (subset_append_right (handler.collectGuards some own) _)
    rw [Elements.courseFirstMatch] at h
    split at h
    · cases h
    split at h
    · exact hlater h
    · cases h
    · next hverdict =>
      split at h
      · exact hlater h
      · exact (handler.accepts_of_course own (fun _ _ _ => hverdict) more h).mono
          (subset_append_left _ (rest.collectGuards some))

end

mutual

theorem Handler.mem_collectGuards {pick : LeafHandler A R H → Option G} {picked : G}
    {leaf : Option (Matcher L) × LeafHandler A R H} (hpick : pick leaf.2 = some picked) :
    (handler : Handler L A R H) → (own : Option (Matcher L)) →
      leaf ∈ handler.collectGuards some own → (leaf.1, picked) ∈ handler.collectGuards pick own
  | .leaf _, _, h => by
    obtain rfl := mem_singleton.mp h
    simp [Handler.collectGuards, hpick]
  | .pipeline handlers, _, h | .firstMatch handlers, _, h | .handlePath _ handlers, _, h =>
    handlers.mem_collectGuards hpick h

theorem Elements.mem_collectGuards {pick : LeafHandler A R H → Option G} {picked : G}
    {leaf : Option (Matcher L) × LeafHandler A R H} (hpick : pick leaf.2 = some picked) :
    (rest : Elements L A R H) → leaf ∈ rest.collectGuards some →
      (leaf.1, picked) ∈ rest.collectGuards pick
  | .nil, h => by cases h
  | .cons own handler rest, h =>
    (mem_append.mp h).elim (fun h => mem_append_left _ (handler.mem_collectGuards hpick own h))
      fun h => mem_append_right _ (rest.mem_collectGuards hpick h)

end

end Course

/-! ### Guards that are asked -/

section Hoisted

variable (d : Dispatcher L A R H F Vars X) (g : GuardLib A R H F Vars X)
  (handler : Handler L A R H) (path : Utf8.Str) (c : Context A R H F Vars X)

def admitted : Context A R H F Vars X :=
  (allowsAccess d g path (collectAccessControlGuards handler) c).2

/-- A request as the rate limits of a route leave it, and the walk gets it. -/
def charged : Context A R H F Vars X :=
  (chargeRateLimits d g path (collectRateLimitGuards handler) false (admitted d g handler path c)).2

variable {handler}

end Hoisted

namespace AdminRule

def dispatcher : Dispatcher Empty Unit Unit Utf8.Str Unit Unit Unit where
  targets := ⟨fun s => some (Target.read s)⟩
  leaf matcher := matcher.elim
  run newUri _ c :=
    { outcome := .passed, rewrite := some newUri, errorStatus := none, method := c.method
      facts := (), vars := (), other := () }

def guards : GuardLib Unit Unit Utf8.Str Unit Unit Unit where
  allows _ _ := true
  declaresTrailers _ := false
  checkRequest _ _ := (false, ())
  admitRoute _ := .ok ()
  drainLocalRequestBody _ := some ()

def admin : Utf8.Str := ⟨ascii "/admin", by decide⟩

def get (path : Utf8.Str) : Context Unit Unit Utf8.Str Unit Unit Unit where
  uri := Target.read path
  rewrittenPath := none
  errorStatus := none
  method := ascii "GET"
  facts := ()
  vars := ()
  proxy := none
  other := ()
  trail := []

def rule : Elements Empty Unit Unit Utf8.Str := .cons none (.leaf (.accessControl ())) .nil

def isAdmin : Option (Matcher Empty) := some (.path [ascii "/admin"])

/-- The rule stands in a group for `/admin`, and yet it is applied to `/home`. -/
def group : Handler Empty Unit Unit Utf8.Str := .pipeline (.cons isAdmin (.pipeline rule) .nil)

/-- The rule is for `/admin`, to which every request is rewritten, but it is not applied. -/
def rewritten : Handler Empty Unit Unit Utf8.Str :=
  .pipeline (.cons none (.leaf (.other admin)) (.cons isAdmin (.leaf (.accessControl ())) .nil))

end AdminRule

end Pingclair
