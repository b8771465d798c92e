import Pingclair.Dispatch.PlanH3

/-!
# `handle_path` and `handle`

A `handle` block runs its elements until one answers. A `handle_path` block is said to be a `handle`
on what is left behind its prefix, but it stops at the first element that accepts the request,
answer or not. Over HTTP/1 and HTTP/2 it also runs a file server that would stand down for a proxy.
-/

namespace Pingclair

open ByteText

variable {L A R H F Vars X : Type}

def Context.reachedLeaves (c : Context A R H F Vars X) : List (LeafHandler A R H) :=
  c.trail.filterMap fun
    | .reached handler => some handler
    | _ => none

/-- The elements that a pipeline runs, by their places, and what each of them says. -/
def Elements.executedPipeline (d : Dispatcher L A R H F Vars X) :
    Elements L A R H → (all : Elements L A R H) → (known : Option Bool) → (i : Nat) → Utf8.Str →
      Context A R H F Vars X → List (Nat × Outcome)
  | .nil, _, _, _, _, _ => []
  | .cons matcher handler rest, all, known, i, path, c =>
    match d.elementMatcherMatches matcher path c with
    | (.noMatch, c) => rest.executedPipeline d all known (i + 1) path c
    | (.error _, _) => []
    | (.matched, c) =>
      match all.standsDown d handler known path c with
      | (true, known, c) => rest.executedPipeline d all known (i + 1) path c
      | (false, known, c) =>
        (i, (handler.handleConfig d path c).1) :: match handler.handleConfig d path c with
          | (.passed, c) =>
            rest.executedPipeline d all known (i + 1) (c.rewrittenPath.getD c.uri.path)
              { c with rewrittenPath := none }
          | _ => []

def Elements.executedFirstMatch (d : Dispatcher L A R H F Vars X) :
    Elements L A R H → (hasProxy : Bool) → (i : Nat) → Utf8.Str → Context A R H F Vars X →
      List (Nat × Outcome)
  | .nil, _, _, _, _ => []
  | .cons matcher handler rest, hasProxy, i, path, c =>
    match d.elementMatcherMatches matcher path c with
    | (.noMatch, c) => rest.executedFirstMatch d hasProxy (i + 1) path c
    | (.error _, _) => []
    | (.matched, c) =>
      if hasProxy && handler.isFileServer then rest.executedFirstMatch d hasProxy (i + 1) path c
      else [(i, (handler.handleConfig d path c).1)]

def Elements.plannedPipeline (p : Planner L A R H F Vars X) :
    Elements L A R H → (hasProxy : Bool) → (i : Nat) → PlanContext A R H F Vars X →
      List (Nat × Plan A R H)
  | .nil, _, _, _ => []
  | .cons matcher handler rest, hasProxy, i, c =>
    match p.elementMatcherVerdict matcher c with
    | (.noMatch, c) => rest.plannedPipeline p hasProxy (i + 1) c
    | (.error _, _) => []
    | (.matched, c) =>
      if hasProxy && handler.isFileServer then rest.plannedPipeline p hasProxy (i + 1) c
      else
        (i, (handler.planH3Handler p c).1) :: match handler.planH3Handler p c with
          | (.next, c) => rest.plannedPipeline p hasProxy (i + 1) c
          | _ => []

def Elements.plannedFirstMatch (p : Planner L A R H F Vars X) :
    Elements L A R H → (hasProxy : Bool) → (i : Nat) → PlanContext A R H F Vars X →
      List (Nat × Plan A R H)
  | .nil, _, _, _ => []
  | .cons matcher handler rest, hasProxy, i, c =>
    match p.elementMatcherVerdict matcher c with
    | (.noMatch, c) => rest.plannedFirstMatch p hasProxy (i + 1) c
    | (.error _, _) => []
    | (.matched, c) =>
      if hasProxy && handler.isFileServer then rest.plannedFirstMatch p hasProxy (i + 1) c
      else [(i, (handler.planH3Handler p c).1)]

/-- No element that is left of a pipeline takes the request. -/
def Elements.Declined (d : Dispatcher L A R H F Vars X) :
    Elements L A R H → (all : Elements L A R H) → (known : Option Bool) → Utf8.Str →
      Context A R H F Vars X → Prop
  | .nil, _, _, _, _ => True
  | .cons matcher handler rest, all, known, path, c =>
    match d.elementMatcherMatches matcher path c with
    | (.noMatch, c) => rest.Declined d all known path c
    | (.error _, _) => False
    | (.matched, c) =>
      match all.standsDown d handler known path c with
      | (true, known, c) => rest.Declined d all known path c
      | (false, _, _) => False

/-- The first element that accepts the request settles it: it does not stand down for a proxy,
it does the same after the proxies beside it were asked, and when it does not answer, no later
element takes the request. -/
def Elements.Settled (d : Dispatcher L A R H F Vars X) :
    Elements L A R H → (all : Elements L A R H) → Utf8.Str → Context A R H F Vars X → Prop
  | .nil, _, _, _ => True
  | .cons matcher handler rest, all, path, c =>
    match d.elementMatcherMatches matcher path c with
    | (.noMatch, c) => rest.Settled d all path c
    | (.error _, _) => True
    | (.matched, c) =>
      match all.standsDown d handler none path c with
      | (true, _, _) => False
      | (false, known, asked) =>
        (handler.handleConfig d path c).1 = (handler.handleConfig d path asked).1 ∧
          match handler.handleConfig d path asked with
          | (.passed, c) =>
            rest.Declined d all known (c.rewrittenPath.getD c.uri.path)
              { c with rewrittenPath := none }
          | _ => True

def Elements.PlanDeclined (p : Planner L A R H F Vars X) :
    Elements L A R H → (hasProxy : Bool) → PlanContext A R H F Vars X → Prop
  | .nil, _, _ => True
  | .cons matcher handler rest, hasProxy, c =>
    match p.elementMatcherVerdict matcher c with
    | (.noMatch, c) => rest.PlanDeclined p hasProxy c
    | (.error _, _) => False
    | (.matched, c) => (hasProxy && handler.isFileServer) = true ∧ rest.PlanDeclined p hasProxy c

/-- The first element that takes the request completes the plan, or no later one takes it. -/
def Elements.PlanSettled (p : Planner L A R H F Vars X) :
    Elements L A R H → (hasProxy : Bool) → PlanContext A R H F Vars X → Prop
  | .nil, _, _ => True
  | .cons matcher handler rest, hasProxy, c =>
    match p.elementMatcherVerdict matcher c with
    | (.noMatch, c) => rest.PlanSettled p hasProxy c
    | (.error _, _) => True
    | (.matched, c) =>
      if hasProxy && handler.isFileServer then rest.PlanSettled p hasProxy c
      else
        match handler.planH3Handler p c with
        | (.next, c) => rest.PlanDeclined p hasProxy c
        | _ => True

section Walk

variable {d : Dispatcher L A R H F Vars X} {path : Utf8.Str} {c : Context A R H F Vars X}

@[simp] theorem reachedLeaves_elementMatcherMatches (m : Option (Matcher L)) :
    (d.elementMatcherMatches m path c).2.reachedLeaves = c.reachedLeaves := by
  cases m with
  | none => rfl
  | some m => simp [Dispatcher.elementMatcherMatches, Context.reachedLeaves, Context.record]

theorem reachedLeaves_standsDown (all : Elements L A R H) (handler : Handler L A R H)
    (known : Option Bool) :
    (all.standsDown d handler known path c).2.2.reachedLeaves = c.reachedLeaves :=
  all.standsDown_keeps (I := fun asked => asked.reachedLeaves = c.reachedLeaves)
    (fun m _ hc => (reachedLeaves_elementMatcherMatches m).trans hc) handler known rfl

theorem Handler.eq_of_isFileServer {handler : Handler L A R H} (h : handler.isFileServer = true) :
    ∃ config, handler = .leaf (.fileServer config) := by
  cases handler with
  | leaf leaf =>
    cases leaf with
    | fileServer config => exact ⟨config, rfl⟩
    | _ => simp [isFileServer] at h
  | _ => simp [isFileServer] at h

variable (rest all : Elements L A R H) (known : Option Bool)

theorem Elements.declined_iff (i : Nat) (path : Utf8.Str) (c : Context A R H F Vars X) :
    rest.Declined d all known path c ↔
      rest.executedPipeline d all known i path c = [] ∧
        (rest.runPipeline d all known path c).1 = .passed := by
  fun_induction executedPipeline d rest all known i path c
  case case1 => simp [Declined, runPipeline]
  case case2 hak ih => simpa only [Declined, runPipeline, hak] using ih
  case case3 hak => simp [Declined, runPipeline, hak]
  case case4 hak _ _ hdw ih =>
    simpa only [Declined, runPipeline, hak, hdw] using ih
  case case5 hak _ _ hdw _ => simp [Declined, hak, hdw]

theorem Elements.reachedLeaves_of_declined
    (path : Utf8.Str) (c : Context A R H F Vars X) (h : rest.Declined d all known path c) :
    (rest.runPipeline d all known path c).2.reachedLeaves = c.reachedLeaves := by
  fun_induction Declined d rest all known path c
  case case1 => rfl
  case case2 matcher _ _ _ _ path c c' hak ih =>
    have hlv : (d.elementMatcherMatches matcher path c).2.reachedLeaves = c.reachedLeaves :=
      reachedLeaves_elementMatcherMatches matcher
    rw [hak] at hlv
    simp only [runPipeline, hak]
    exact (ih h).trans hlv
  case case4 matcher handler _ all known path c c' hak _ _ hdw ih =>
    have hlv : (d.elementMatcherMatches matcher path c).2.reachedLeaves = c.reachedLeaves :=
      reachedLeaves_elementMatcherMatches matcher
    have hdownLeaves : (all.standsDown d handler known path c').2.2.reachedLeaves =
        c'.reachedLeaves := reachedLeaves_standsDown all handler known
    rw [hak] at hlv
    rw [hdw] at hdownLeaves
    simp only [runPipeline, hak, hdw]
    exact (ih h).trans (hdownLeaves.trans hlv)
  case case3 | case5 => exact h.elim

theorem Elements.le_of_mem_executedPipeline
    (i : Nat) (path : Utf8.Str) (c : Context A R H F Vars X) :
    ∀ ran ∈ rest.executedPipeline d all known i path c, i ≤ ran.1 := by
  fun_induction executedPipeline d rest all known i path c
  case case1 | case3 => simp
  case case2 ih | case4 ih => exact fun ran hran => Nat.le_of_succ_le (ih ran hran)
  case case5 ih =>
    rintro ran (_ | ⟨_, hran⟩)
    · exact le_rfl
    · split at hran
      · exact Nat.le_of_succ_le (ih _ ran hran)
      · cases hran

theorem trail_runConfig (config : H) : (d.runConfig config path c).2.trail = c.trail := by
  rw [Dispatcher.runConfig]
  split
  · rfl
  · cases hrewrite : d.applyRewrite _ _ with
    | none => rfl
    | some c' =>
      obtain ⟨uri, -, rfl⟩ := Option.map_eq_some_iff.mp hrewrite
      rfl

theorem trail_runLeaf (handler : LeafHandler A R H) :
    (d.runLeaf handler path c).2.trail = c.trail ++ [.reached handler] := by
  cases handler with
  | accessControl p => rfl
  | rateLimit limit => rfl
  | fileServer config => exact trail_runConfig config
  | other config => exact trail_runConfig config
  | reverseProxy config f s =>
    rw [Dispatcher.runLeaf]
    split
    · exact trail_runConfig config
    · rfl

theorem reachedLeaves_runLeaf (handler : LeafHandler A R H) :
    (d.runLeaf handler path c).2.reachedLeaves = c.reachedLeaves ++ [handler] := by
  simp [Context.reachedLeaves, trail_runLeaf]

/-- Asking the proxies beside a handler does not change what the handler reaches. -/
theorem Handler.reachedLeaves_of_standsDown {all : Elements L A R H} {handler : Handler L A R H}
    {known after : Option Bool} {down : Bool} {asked : Context A R H F Vars X}
    (h : all.standsDown d handler known path c = (down, after, asked)) :
    (handler.handleConfig d path asked).2.reachedLeaves =
      (handler.handleConfig d path c).2.reachedLeaves := by
  have hlv : asked.reachedLeaves = c.reachedLeaves := by
    have hdw : (all.standsDown d handler known path c).2.2.reachedLeaves = c.reachedLeaves :=
      reachedLeaves_standsDown all handler known
    rwa [h] at hdw
  cases hh : handler.isFileServer with
  | false =>
    simp only [Elements.standsDown, hh, Bool.false_eq_true, if_false, Prod.mk.injEq] at h
    rw [h.2.2]
  | true =>
    obtain ⟨config, rfl⟩ := eq_of_isFileServer hh
    simp [handleConfig, reachedLeaves_runLeaf, hlv]

/-- A first-match group does what a pipeline of the same elements does exactly when the first
element that accepts the request settles it. -/
theorem Elements.sameRun_iff (i : Nat) (path : Utf8.Str) (c : Context A R H F Vars X) :
    (rest.executedFirstMatch d false i path c = rest.executedPipeline d all none i path c ∧
      (rest.runFirstMatch d false path c).1 = (rest.runPipeline d all none path c).1 ∧
      (rest.runFirstMatch d false path c).2.reachedLeaves =
        (rest.runPipeline d all none path c).2.reachedLeaves) ↔
      rest.Settled d all path c := by
  fun_induction Settled d rest all path c generalizing i <;>
    simp only [executedFirstMatch, executedPipeline, runFirstMatch,
      runPipeline, and_self, *]
  case case4 rest all path _ c1 _ known asked _ =>
    -- The pipeline goes past the element that the group runs.
    simp only [iff_false, not_and]
    intro hran
    have hla := rest.le_of_mem_executedPipeline (d := d) all known (i + 1) path asked
    rw [← hran] at hla
    simp at hla
  case case5 handler rest all path _ c1 _ known asked hdw =>
    simp only [Bool.false_and, Bool.false_eq_true, if_false]
    have hlv := Handler.reachedLeaves_of_standsDown hdw
    cases hrun : handler.handleConfig d path asked with
    | mk outcome c2 =>
      rw [hrun] at hlv
      cases outcome with
      | passed =>
        have hdecl := rest.declined_iff (d := d) all known (i + 1)
          (c2.rewrittenPath.getD c2.uri.path) { c2 with rewrittenPath := none }
        simp only [hdecl, List.cons.injEq, Prod.mk.injEq, true_and]
        constructor
        · rintro ⟨⟨houtcome, hnone⟩, hsm, -⟩
          exact ⟨houtcome, hnone.symm, hsm ▸ houtcome⟩
        · rintro ⟨houtcome, hnone, hpas⟩
          refine ⟨⟨houtcome, hnone.symm⟩, houtcome.trans hpas.symm, ?_⟩
          rw [← hlv]
          exact (rest.reachedLeaves_of_declined all known _ _ (hdecl.mpr ⟨hnone, hpas⟩)).symm
      | handled | failed => simp [← hlv]

end Walk

section Plan

variable {p : Planner L A R H F Vars X}

theorem reachedLeaves_elementMatcherVerdict (m : Option (Matcher L))
    (c : PlanContext A R H F Vars X) :
    (p.elementMatcherVerdict m c).2.reachedLeaves = c.reachedLeaves := by
  cases m with
  | none => rfl
  | some m => simp [Planner.elementMatcherVerdict, Context.reachedLeaves, Context.record]

variable (rest : Elements L A R H)

theorem Elements.planDeclined_iff (hasProxy : Bool) (i : Nat) (c : PlanContext A R H F Vars X) :
    rest.PlanDeclined p hasProxy c ↔
      rest.plannedPipeline p hasProxy i c = [] ∧ (rest.planPipeline p hasProxy c).1 = .next := by
  fun_induction plannedPipeline p rest hasProxy i c
  case case1 => simp [PlanDeclined, planPipeline]
  case case2 hak ih => simpa only [PlanDeclined, planPipeline, hak] using ih
  case case3 hak => simp [PlanDeclined, planPipeline, hak]
  case case4 hak hdw ih =>
    simpa only [PlanDeclined, planPipeline, hak, hdw, if_true, true_and] using ih
  case case5 hak hdw _ => simp [PlanDeclined, hak, hdw]

theorem Elements.reachedLeaves_of_planDeclined (hasProxy : Bool)
    (c : PlanContext A R H F Vars X) (h : rest.PlanDeclined p hasProxy c) :
    (rest.planPipeline p hasProxy c).2.reachedLeaves = c.reachedLeaves := by
  fun_induction PlanDeclined p rest hasProxy c
  case case1 => rfl
  case case2 matcher _ _ _ c c' hak ih =>
    have hlv := reachedLeaves_elementMatcherVerdict (p := p) matcher c
    rw [hak] at hlv
    simp only [planPipeline, hak]
    exact (ih h).trans hlv
  case case3 => exact h.elim
  case case4 matcher _ _ _ c c' hak ih =>
    have hlv := reachedLeaves_elementMatcherVerdict (p := p) matcher c
    rw [hak] at hlv
    simp only [planPipeline, hak, h.1, if_true]
    exact (ih h.2).trans hlv

/-- A plan of a first-match group is that of a pipeline of the same elements exactly when the
first element that takes the request settles it. -/
theorem Elements.samePlan_iff (hasProxy : Bool) (i : Nat) (c : PlanContext A R H F Vars X) :
    (rest.plannedFirstMatch p hasProxy i c = rest.plannedPipeline p hasProxy i c ∧
      (rest.planFirstMatch p hasProxy c).1 = (rest.planPipeline p hasProxy c).1 ∧
      (rest.planFirstMatch p hasProxy c).2.reachedLeaves =
        (rest.planPipeline p hasProxy c).2.reachedLeaves) ↔
      rest.PlanSettled p hasProxy c := by
  fun_induction PlanSettled p rest hasProxy c generalizing i <;>
    simp only [plannedFirstMatch, plannedPipeline, planFirstMatch,
      planPipeline, and_self, if_true, Bool.false_eq_true, if_false, *]
  case case5 rest hasProxy _ _ _ _ c2 _ =>
    have hdecl := rest.planDeclined_iff (p := p) hasProxy (i + 1) c2
    simp only [hdecl, List.cons.injEq, true_and]
    constructor
    · rintro ⟨hnone, hnx, -⟩
      exact ⟨hnone.symm, hnx.symm⟩
    · rintro ⟨hnone, hnx⟩
      refine ⟨hnone.symm, hnx.symm, ?_⟩
      exact (rest.reachedLeaves_of_planDeclined hasProxy c2 (hdecl.mpr ⟨hnone, hnx⟩)).symm

end Plan

/-- The elements of a group that run, in order, and what each of them says. -/
def Handler.executed (d : Dispatcher L A R H F Vars X) :
    Handler L A R H → Utf8.Str → Context A R H F Vars X → List (Nat × Outcome)
  | .leaf _, _, _ => []
  | .pipeline handlers, path, c => handlers.executedPipeline d handlers none 0 path c
  | .firstMatch handlers, path, c =>
    handlers.executedFirstMatch d handlers.containsReverseProxy 0 path c
  | .handlePath pre handlers, path, c =>
    let rewritten :=
      if (stripPathPrefix path pre).isSome then rewriteUri c.uri.text (some pre) none none none
      else c.uri.text
    match d.applyRewrite rewritten c with
    | some c => handlers.executedFirstMatch d false 0 (Target.pathPart rewritten) c
    | none => []

def Handler.planned (p : Planner L A R H F Vars X) :
    Handler L A R H → PlanContext A R H F Vars X → List (Nat × Plan A R H)
  | .leaf _, _ => []
  | .pipeline handlers, c => handlers.plannedPipeline p handlers.containsReverseProxy 0 c
  | .firstMatch handlers, c => handlers.plannedFirstMatch p handlers.containsReverseProxy 0 c
  | .handlePath pre handlers, c =>
    let stripped :=
      if (stripPathPrefix (Target.pathPart c.effectiveUri) pre).isSome then
        p.setTarget (rewriteUri c.effectiveUri (some pre) none none none) c
      else some c
    match stripped with
    | some c => handlers.plannedFirstMatch p handlers.containsReverseProxy 0 c
    | none => []

/-- Two groups do the same with two requests: the same elements run and say the same, the groups
say the same, and below the elements the same leaves are reached. -/
structure SameRun (d : Dispatcher L A R H F Vars X) (group : Handler L A R H) (path : Utf8.Str)
    (c : Context A R H F Vars X) (group' : Handler L A R H) (path' : Utf8.Str)
    (c' : Context A R H F Vars X) : Prop where
  executed : group.executed d path c = group'.executed d path' c'
  outcome : (group.handleConfig d path c).1 = (group'.handleConfig d path' c').1
  reachedLeaves : (group.handleConfig d path c).2.reachedLeaves =
    (group'.handleConfig d path' c').2.reachedLeaves

structure SamePlan (p : Planner L A R H F Vars X) (group : Handler L A R H)
    (c : PlanContext A R H F Vars X) (group' : Handler L A R H)
    (c' : PlanContext A R H F Vars X) : Prop where
  planned : group.planned p c = group'.planned p c'
  plan : (group.planH3Handler p c).1 = (group'.planH3Handler p c').1
  reachedLeaves : (group.planH3Handler p c).2.reachedLeaves =
    (group'.planH3Handler p c').2.reachedLeaves

theorem sameRun_handlePath {d : Dispatcher L A R H F Vars X} {pre : Utf8.Str}
    {body : Elements L A R H} {path : Utf8.Str} {c c' : Context A R H F Vars X}
    (hp : (stripPathPrefix path pre).isSome)
    (hstr : d.applyRewrite (rewriteUri c.uri.text (some pre) none none none) c = some c') :
    SameRun d (.handlePath pre body) path c (.pipeline body)
        (Target.pathPart (rewriteUri c.uri.text (some pre) none none none)) c' ↔
      body.Settled d body (Target.pathPart (rewriteUri c.uri.text (some pre) none none none))
        c' := by
  rw [← Elements.sameRun_iff body body 0]
  constructor
  · rintro ⟨hexe, houtcome, hrc⟩
    simp only [Handler.executed, Handler.handleConfig, hp, if_true, hstr] at hexe houtcome hrc
    exact ⟨hexe, houtcome, hrc⟩
  · rintro ⟨hexe, houtcome, hrc⟩
    refine ⟨?_, ?_, ?_⟩
    all_goals
      simp only [Handler.executed, Handler.handleConfig, hp, if_true, hstr]
      assumption

theorem samePlan_handlePath {p : Planner L A R H F Vars X} {pre : Utf8.Str}
    {body : Elements L A R H} {c c' : PlanContext A R H F Vars X}
    (hp : (stripPathPrefix (Target.pathPart c.effectiveUri) pre).isSome)
    (hstr : p.setTarget (rewriteUri c.effectiveUri (some pre) none none none) c = some c') :
    SamePlan p (.handlePath pre body) c (.pipeline body) c' ↔
      body.PlanSettled p body.containsReverseProxy c' := by
  rw [← Elements.samePlan_iff body body.containsReverseProxy 0]
  constructor
  · rintro ⟨hpln, hpn, hrc⟩
    simp only [Handler.planned, Handler.planH3Handler, hp, if_true, hstr] at hpln hpn hrc
    exact ⟨hpln, hpn, hrc⟩
  · rintro ⟨hpln, hpn, hrc⟩
    refine ⟨?_, ?_, ?_⟩
    all_goals
      simp only [Handler.planned, Handler.planH3Handler, hp, if_true, hstr]
      assumption

/-- On a request whose path starts with the prefix, a `handle_path` block does what a `handle`
block does on the request without it exactly when, on both kinds of transport, the first element
that takes the request settles it. -/
theorem handlePath_iff (d : Dispatcher L A R H F Vars X) (p : Planner L A R H F Vars X)
    (pre : Utf8.Str) (body : Elements L A R H) {path : Utf8.Str} {c c' : Context A R H F Vars X}
    {q q' : PlanContext A R H F Vars X} (hpath : (stripPathPrefix path pre).isSome)
    (hstripped : d.applyRewrite (rewriteUri c.uri.text (some pre) none none none) c = some c')
    (hplanPath : (stripPathPrefix (Target.pathPart q.effectiveUri) pre).isSome)
    (hplanStripped : p.setTarget (rewriteUri q.effectiveUri (some pre) none none none) q =
      some q') :
    (SameRun d (.handlePath pre body) path c (.pipeline body)
        (Target.pathPart (rewriteUri c.uri.text (some pre) none none none)) c' ∧
      SamePlan p (.handlePath pre body) q (.pipeline body) q') ↔
    (body.Settled d body (Target.pathPart (rewriteUri c.uri.text (some pre) none none none)) c' ∧
      body.PlanSettled p body.containsReverseProxy q') :=
  and_congr (sameRun_handlePath hpath hstripped) (samePlan_handlePath hplanPath hplanStripped)

namespace ApiBlock

def targets : TargetLib where
  parse s := some (Target.read s)

abbrev ApiContext := Context Unit Unit Bool Unit Unit Unit

abbrev ApiPlanContext := PlanContext Unit Unit Bool Unit Unit Unit

def outcome (answers : Bool) : Outcome := if answers then .handled else .passed

def dispatcher : Dispatcher Empty Unit Unit Bool Unit Unit Unit where
  targets := targets
  leaf matcher := matcher.elim
  run answers _ c :=
    { outcome := outcome answers, rewrite := none, errorStatus := none, method := c.method
      facts := (), vars := (), other := () }

def planner : Planner Empty Unit Unit Bool Unit Unit Unit where
  targets := targets
  leaf matcher := matcher.elim
  plan answers c :=
    { outcome := outcome answers, rewrite := none, method := c.method
      facts := (), vars := (), other := () }

def api : Utf8.Str := ⟨ascii "/api", by decide⟩

def get (path : Utf8.Str) : ApiContext where
  uri := Target.read path
  rewrittenPath := none
  errorStatus := none
  method := ascii "GET"
  facts := ()
  vars := ()
  proxy := none
  other := ()
  trail := []

def getPlan (path : Utf8.Str) : ApiPlanContext := { get path with effectiveUri := path }

def users : Utf8.Str := ⟨ascii "/api/users", by decide⟩

def stripped : Utf8.Str := ⟨ascii "/users", by decide⟩

def respond : Elements Empty Unit Unit Bool := .cons none (.leaf (.other true)) .nil

def header : Elements Empty Unit Unit Bool := .cons none (.leaf (.other false)) respond

def getStripped : ApiContext :=
  { get stripped with rewrittenPath := some (Target.pathPart stripped) }

theorem handlePath_respond :
    SameRun dispatcher (.handlePath api respond) users (get users) (.pipeline respond)
        (Target.pathPart (rewriteUri (get users).uri.text (some api) none none none))
        getStripped ∧
      SamePlan planner (.handlePath api respond) (getPlan users) (.pipeline respond)
        (getPlan stripped) := by
  refine (handlePath_iff dispatcher planner api respond (by decide) ?_ (by decide)
    ?_).mpr ⟨⟨rfl, trivial⟩, trivial⟩
  · rfl
  · rfl

/-- An element that sets a header and does not answer, before one that answers. In the
`handle_path` block the second never runs. -/
theorem not_sameRun_header :
    ¬ SameRun dispatcher (.handlePath api header) users (get users) (.pipeline header) stripped
        getStripped ∧
      ¬ SamePlan planner (.handlePath api header) (getPlan users) (.pipeline header)
        (getPlan stripped) := by
  constructor
  · intro h
    have houtcome := h.outcome
    exact absurd houtcome (by decide)
  · intro h
    have hpn := h.plan
    change Plan.next = Plan.completed (.other true) at hpn
    simp at hpn

end ApiBlock

end Pingclair
