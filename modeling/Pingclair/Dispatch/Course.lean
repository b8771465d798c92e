import Pingclair.Dispatch.HandlePath
import Pingclair.Dispatch.RequestFilter

/-!
# The course of a request

The walk of a tree depends on the request only through what matchers say of it and what leaf
handlers do with it. An outlook says that ahead, for every element of the tree; the course is what
is asked and done then, in order. It is made from the tree and the outlook alone. When all of it
comes as the outlook says, the walk takes that course.

Only the way to the last guard is of interest here: a course ends where no guard is left.
-/

namespace Pingclair

open ByteText List

variable {L A R H F Vars X : Type}

def LeafHandler.guard : LeafHandler A R H → Option (A ⊕ R)
  | .accessControl policy => some (.inl policy)
  | .rateLimit limit => some (.inr limit)
  | _ => none

def Handler.hasGuard (handler : Handler L A R H) : Bool :=
  handler.leaves.any fun leaf => leaf.guard.isSome

def Elements.hasGuard (elements : Elements L A R H) : Bool :=
  elements.leaves.any fun leaf => leaf.guard.isSome

/-- What is asked about a request, or done with it, on its way through a tree. -/
inductive Task (L A R H : Type) where
  | ask (matcher : Option (Matcher L)) (handler : Handler L A R H)
  | shadow (all : Elements L A R H)
  | run (handler : LeafHandler A R H)
  | handOver (pre : Utf8.Str)
  | resume

/-- What the tasks of a request come to. Matchers are told apart by their elements. -/
structure Outlook (L A R H : Type) where
  verdict : Option (Matcher L) → Handler L A R H → MatcherVerdict
  shadowed : Elements L A R H → Bool
  passes : LeafHandler A R H → Bool
  handsOver : Utf8.Str → Bool

def Dispatcher.perform (d : Dispatcher L A R H F Vars X) :
    Task L A R H → Utf8.Str × Context A R H F Vars X → Utf8.Str × Context A R H F Vars X
  | .ask matcher _, (path, c) => (path, (d.elementMatcherMatches matcher path c).2)
  | .shadow all, (path, c) => (path, (all.hasMatchingHttpProxy d path c).2)
  | .run handler, (path, c) => (path, (d.runLeaf handler path c).2)
  | .handOver pre, (path, c) => (d.handOver pre path c).getD (path, c)
  | .resume, (_, c) => (c.rewrittenPath.getD c.uri.path, { c with rewrittenPath := none })

def Dispatcher.performs (d : Dispatcher L A R H F Vars X) (tasks : List (Task L A R H))
    (state : Utf8.Str × Context A R H F Vars X) : Utf8.Str × Context A R H F Vars X :=
  tasks.foldl (fun state task => d.perform task state) state

theorem performs_append (d : Dispatcher L A R H F Vars X) (tasks later : List (Task L A R H))
    (state : Utf8.Str × Context A R H F Vars X) :
    d.performs (tasks ++ later) state = d.performs later (d.performs tasks state) :=
  foldl_append

namespace Outlook

variable (o : Outlook L A R H) (d : Dispatcher L A R H F Vars X)

def Foresees : Task L A R H → Utf8.Str × Context A R H F Vars X → Prop
  | .ask matcher handler, (path, c) =>
    (d.elementMatcherMatches matcher path c).1 = o.verdict matcher handler
  | .shadow all, (path, c) => (all.hasMatchingHttpProxy d path c).1 = o.shadowed all
  | .run handler, (path, c) => (d.runLeaf handler path c).1 = .passed ↔ o.passes handler = true
  | .handOver pre, (path, c) => (d.handOver pre path c).isSome = o.handsOver pre
  | .resume, _ => True

/-- Tasks that are done one after the other come as the outlook says. -/
def Steady : List (Task L A R H) → Utf8.Str × Context A R H F Vars X → Prop
  | [], _ => True
  | task :: tasks, state => o.Foresees d task state ∧ Steady tasks (d.perform task state)

variable {o d}

theorem steady_append {tasks later : List (Task L A R H)}
    {state : Utf8.Str × Context A R H F Vars X} : o.Steady d (tasks ++ later) state ↔
      o.Steady d tasks state ∧ o.Steady d later (d.performs tasks state) := by
  induction tasks generalizing state with
  | nil => simp [Steady, Dispatcher.performs]
  | cons task tasks ih => simp only [cons_append, Steady, ih, and_assoc]; rfl

end Outlook

/-- Tasks, and whether the request is left to what comes behind them. -/
structure Course (L A R H : Type) where
  tasks : List (Task L A R H)
  passes : Bool

def Course.behind (tasks : List (Task L A R H)) (course : Course L A R H) : Course L A R H :=
  ⟨tasks ++ course.tasks, course.passes⟩

def guardsOf (tasks : List (Task L A R H)) : List (A ⊕ R) :=
  tasks.filterMap fun
    | .run handler => handler.guard
    | _ => none

def askTasks (matcher : Option (Matcher L)) (handler : Handler L A R H) (all : Elements L A R H)
    (known : Bool) : List (Task L A R H) :=
  .ask matcher handler :: if handler.isFileServer && !known then [.shadow all] else []

mutual

/-- The course through a tree. `more` says that a guard stands behind it. -/
def Handler.course (o : Outlook L A R H) (more : Bool) : Handler L A R H → Course L A R H
  | .leaf handler => ⟨[.run handler], o.passes handler⟩
  | .pipeline handlers => handlers.coursePipeline o more handlers false
  | .firstMatch handlers => handlers.courseFirstMatch o more handlers.containsReverseProxy
  | .handlePath pre handlers =>
    if o.handsOver pre then (handlers.courseFirstMatch o more false).behind [.handOver pre]
    else ⟨[.handOver pre], false⟩

/-- `known` says that the proxies of the pipeline were asked. -/
def Elements.coursePipeline (o : Outlook L A R H) (more : Bool) :
    Elements L A R H → (all : Elements L A R H) → (known : Bool) → Course L A R H
  | .nil, _, _ => ⟨[], true⟩
  | .cons matcher handler rest, all, known =>
    if !(more || rest.hasGuard || handler.hasGuard) then ⟨[], true⟩
    else
      match o.verdict matcher handler with
      | .noMatch => (rest.coursePipeline o more all known).behind [.ask matcher handler]
      | .error _ => ⟨[.ask matcher handler], false⟩
      | .matched =>
        let asks := askTasks matcher handler all known
        let later := rest.coursePipeline o more all (known || handler.isFileServer)
        if handler.isFileServer && o.shadowed all then later.behind asks
        else
          let here := handler.course o (more || rest.hasGuard)
          if (more || rest.hasGuard) && here.passes then
            later.behind (asks ++ (here.tasks ++ [.resume]))
          else ⟨asks ++ here.tasks, false⟩

def Elements.courseFirstMatch (o : Outlook L A R H) (more : Bool) :
    Elements L A R H → (hasProxy : Bool) → Course L A R H
  | .nil, _ => ⟨[], true⟩
  | .cons matcher handler rest, hasProxy =>
    if !(more || rest.hasGuard || handler.hasGuard) then ⟨[], true⟩
    else
      match o.verdict matcher handler with
      | .noMatch => (rest.courseFirstMatch o more hasProxy).behind [.ask matcher handler]
      | .error _ => ⟨[.ask matcher handler], false⟩
      | .matched =>
        if hasProxy && handler.isFileServer then
          (rest.courseFirstMatch o more hasProxy).behind [.ask matcher handler]
        else (handler.course o more).behind [.ask matcher handler]

end

/-! ### The walk takes its course -/

def Context.reachedGuards (c : Context A R H F Vars X) : List (A ⊕ R) :=
  c.reachedLeaves.filterMap LeafHandler.guard

/-- The walk reached the guards of a course, and, if a guard stands behind it, ended as the course
does. -/
def Course.Taken (course : Course L A R H) (d : Dispatcher L A R H F Vars X) (more : Bool)
    (state : Utf8.Str × Context A R H F Vars X) (walk : Outcome × Context A R H F Vars X) : Prop :=
  walk.2.reachedGuards = state.2.reachedGuards ++ guardsOf course.tasks ∧
    (more = true → (walk.1 = .passed ↔ course.passes = true) ∧
      (course.passes = true → walk.2 = (d.performs course.tasks state).2))

section Taken

variable {o : Outlook L A R H} {d : Dispatcher L A R H F Vars X} {path : Utf8.Str}
  {c after : Context A R H F Vars X} {more : Bool} {state : Utf8.Str × Context A R H F Vars X}
  {course : Course L A R H} {walk : Outcome × Context A R H F Vars X}

theorem reachedGuards_congr (h : after.reachedLeaves = c.reachedLeaves) :
    after.reachedGuards = c.reachedGuards :=
  congrArg (List.filterMap LeafHandler.guard) h

theorem reachedLeaves_handOver {pre path' : Utf8.Str} {c' : Context A R H F Vars X}
    (h : d.handOver pre path c = some (path', c')) : c'.reachedLeaves = c.reachedLeaves := by
  obtain ⟨_, hrewrite, heq⟩ := Option.map_eq_some_iff.mp h
  obtain ⟨_, -, rfl⟩ := Option.map_eq_some_iff.mp hrewrite
  cases heq
  rfl

theorem reachedGuards_runLeaf (handler : LeafHandler A R H) :
    (d.runLeaf handler path c).2.reachedGuards = c.reachedGuards ++ handler.guard.toList := by
  rw [Context.reachedGuards, reachedLeaves_runLeaf]
  cases hguard : handler.guard <;> simp [Context.reachedGuards, hguard]

theorem reachedGuards_perform (task : Task L A R H) (state : Utf8.Str × Context A R H F Vars X) :
    (d.perform task state).2.reachedGuards = state.2.reachedGuards ++ guardsOf [task] := by
  obtain ⟨path, c⟩ := state
  cases task with
  | ask matcher handler =>
    exact (reachedGuards_congr (reachedLeaves_elementMatcherMatches matcher)).trans
      (append_nil _).symm
  | shadow all =>
    have hkept : (all.hasMatchingHttpProxy d path c).2.reachedLeaves = c.reachedLeaves :=
      all.hasMatchingHttpProxy_keeps (I := fun asked => asked.reachedLeaves = c.reachedLeaves)
        (fun m _ hc => (reachedLeaves_elementMatcherMatches m).trans hc) c rfl
    exact (reachedGuards_congr hkept).trans (append_nil _).symm
  | run handler =>
    refine (reachedGuards_runLeaf handler).trans ?_
    cases hguard : handler.guard <;> simp [guardsOf, hguard]
  | handOver pre =>
    rw [Dispatcher.perform]
    cases hover : d.handOver pre path c with
    | none => exact (append_nil _).symm
    | some handed =>
      exact (reachedGuards_congr (reachedLeaves_handOver hover)).trans (append_nil _).symm
  | resume => exact (append_nil _).symm

theorem reachedGuards_performs (tasks : List (Task L A R H)) :
    (d.performs tasks state).2.reachedGuards = state.2.reachedGuards ++ guardsOf tasks := by
  induction tasks generalizing state with
  | nil => exact (append_nil _).symm
  | cons task tasks ih =>
    have hcons : guardsOf (task :: tasks) = guardsOf [task] ++ guardsOf tasks :=
      filterMap_append (l := [task])
    rw [hcons, ← append_assoc, ← reachedGuards_perform, ← ih]
    rfl

variable {tasks : List (Task L A R H)} {handler : Handler L A R H}

/-- Tasks that are done before a walk. -/
theorem Course.Taken.behind (h : course.Taken d more (d.performs tasks state) walk) :
    (course.behind tasks).Taken d more state walk := by
  obtain ⟨hguards, hends⟩ := h
  refine ⟨?_, fun hmore => ⟨(hends hmore).1, fun hpasses => ?_⟩⟩
  · rw [hguards, reachedGuards_performs, append_assoc, Course.behind, guardsOf, guardsOf, guardsOf,
      filterMap_append]
  · rw [(hends hmore).2 hpasses, Course.behind, performs_append]

theorem Course.Taken.ended
    (hguards : walk.2.reachedGuards = (d.performs tasks state).2.reachedGuards)
    (hends : more = true → walk.1 ≠ .passed) :
    Course.Taken (⟨tasks, false⟩ : Course L A R H) d more state walk :=
  ⟨by rw [hguards, reachedGuards_performs], fun hmore => by simpa using hends hmore⟩

/-- No guard is reached where there is none. -/
theorem kept_reachedGuards {leaves : List (LeafHandler A R H)} (guards : List (A ⊕ R))
    (hnone : leaves.any (fun leaf => leaf.guard.isSome) = false) :
    Kept d leaves fun _ c => c.reachedGuards = guards where
  asked hc matcher := (reachedGuards_congr (reachedLeaves_elementMatcherMatches matcher)).trans hc
  raised hc _ := hc
  ran hc handler hmem := by
    have hno : handler.guard = none := by simpa using (any_eq_false.mp hnone) handler hmem
    rw [reachedGuards_runLeaf, hno, hc]
    exact append_nil _
  handedOver hc hover := (reachedGuards_congr (reachedLeaves_handOver hover)).trans hc
  resumed hc := hc

theorem taken_of_kept (hmore : more = false)
    (hkept : ∃ _ : Utf8.Str, walk.2.reachedGuards = state.2.reachedGuards) :
    Course.Taken (⟨[], true⟩ : Course L A R H) d more state walk := by
  obtain ⟨_, hkept⟩ := hkept
  exact ⟨hkept.trans (append_nil _).symm, by simp [hmore]⟩

theorem no_guard_of_stop {rest : Elements L A R H}
    (h : (!(more || rest.hasGuard || handler.hasGuard)) = true) (matcher : Option (Matcher L)) :
    more = false ∧ (Elements.cons matcher handler rest).hasGuard = false := by
  simp only [Bool.not_eq_true', Bool.or_eq_false_iff] at h
  refine ⟨h.1.1, ?_⟩
  rw [Elements.hasGuard, Elements.leaves, any_append, Bool.or_eq_false_iff]
  exact ⟨h.2, h.1.2⟩

variable {asked : Context A R H F Vars X} {matcher : Option (Matcher L)}

theorem asked_of_steady {verdict : MatcherVerdict}
    (h : o.Steady d (.ask matcher handler :: tasks) (path, c))
    (hasked : d.elementMatcherMatches matcher path c = (verdict, asked)) :
    verdict = o.verdict matcher handler ∧ o.Steady d tasks (path, asked) ∧
      d.performs [.ask matcher handler] (path, c) = (path, asked) := by
  obtain ⟨hverdict, hsteady⟩ := h
  simp only [Outlook.Foresees, Dispatcher.perform, hasked] at hverdict hsteady
  exact ⟨hverdict, hsteady, by simp [Dispatcher.performs, Dispatcher.perform, hasked]⟩

/-- Whether a handler stands down, when the proxies beside it were asked or are asked now. -/
theorem standsDown_of_steady {all : Elements L A R H} {known : Option Bool}
    {verdict : MatcherVerdict} (hknown : ∀ value ∈ known, value = o.shadowed all)
    (h : o.Steady d (askTasks matcher handler all known.isSome ++ tasks) (path, c))
    (hasked : d.elementMatcherMatches matcher path c = (verdict, asked)) :
    ∃ known' c', verdict = o.verdict matcher handler ∧
      all.standsDown d handler known path asked =
        (handler.isFileServer && o.shadowed all, known', c') ∧
      (∀ value ∈ known', value = o.shadowed all) ∧
      known'.isSome = (known.isSome || handler.isFileServer) ∧ o.Steady d tasks (path, c') ∧
      d.performs (askTasks matcher handler all known.isSome) (path, c) = (path, c') := by
  obtain ⟨hverdict, hsteady, hperformed⟩ := asked_of_steady h hasked
  rw [Elements.standsDown, askTasks]
  cases hserver : handler.isFileServer with
  | false => exact ⟨known, asked, hverdict, rfl, hknown, by simp, by simpa [hserver] using hsteady,
      by simpa using hperformed⟩
  | true =>
    cases known with
    | some value =>
      obtain rfl := hknown value rfl
      exact ⟨_, asked, hverdict, rfl, hknown, rfl, by simpa using hsteady,
        by simpa using hperformed⟩
    | none =>
      simp only [hserver, Option.isSome_none, Bool.not_false, Bool.and_true, if_true] at hsteady
      obtain ⟨hshadowed, hsteady⟩ := hsteady
      refine ⟨some (o.shadowed all), _, hverdict, ?_, by simp, rfl, hsteady, ?_⟩
      · exact Prod.ext hshadowed (Prod.ext (congrArg some hshadowed) rfl)
      · simp [Dispatcher.performs, Dispatcher.perform, hasked]

mutual

/-- A walk on which all comes as the outlook says takes the course. -/
theorem Handler.taken : (handler : Handler L A R H) → (more : Bool) → (path : Utf8.Str) →
    (c : Context A R H F Vars X) → o.Steady d (handler.course o more).tasks (path, c) →
      (handler.course o more).Taken d more (path, c) (handler.handleConfig d path c)
  | .leaf handler, more, path, c, h =>
    ⟨reachedGuards_perform (.run handler : Task L A R H) (path, c),
      fun _ => ⟨h.1, fun _ => rfl⟩⟩
  | .pipeline handlers, more, path, c, h =>
    handlers.takenPipeline more handlers none (by simp) path c h
  | .firstMatch handlers, more, path, c, h => handlers.takenFirstMatch more _ path c h
  | .handlePath pre handlers, more, path, c, h => by
    rw [Handler.course] at h ⊢
    rw [handleConfig_handlePath]
    cases hover : d.handOver pre path c with
    | none =>
      have hno : o.handsOver pre = false := by
        split at h
        · simpa [hover] using h.1.symm
        · next hno => simpa using hno
      rw [if_neg (by simp [hno])]
      refine .ended ?_ (by simp)
      simp [Dispatcher.performs, Dispatcher.perform, hover]
    | some handed =>
      have hyes : o.handsOver pre = true := by
        split at h
        · assumption
        · simpa [hover] using h.1.symm
      rw [if_pos hyes] at h ⊢
      have hperformed : d.performs [.handOver pre] (path, c) = handed := by
        simp [Dispatcher.performs, Dispatcher.perform, hover]
      have hsteady := (Outlook.steady_append.mp h).2
      rw [hperformed] at hsteady
      refine .behind ?_
      rw [hperformed]
      exact handlers.takenFirstMatch more false _ _ hsteady

theorem Elements.takenPipeline : (rest : Elements L A R H) → (more : Bool) →
    (all : Elements L A R H) → (known : Option Bool) →
    (∀ value ∈ known, value = o.shadowed all) → (path : Utf8.Str) →
    (c : Context A R H F Vars X) →
    o.Steady d (rest.coursePipeline o more all known.isSome).tasks (path, c) →
      (rest.coursePipeline o more all known.isSome).Taken d more (path, c)
        (rest.runPipeline d all known path c)
  | .nil, _, _, _, _, _, _, _ =>
    ⟨(append_nil _).symm, fun _ => ⟨iff_of_true rfl rfl, fun _ => rfl⟩⟩
  | .cons matcher handler rest, more, all, known, hknown, path, c, h => by
    rw [Elements.coursePipeline] at h ⊢
    by_cases hstop : (!(more || rest.hasGuard || handler.hasGuard)) = true
    · rw [if_pos hstop]
      obtain ⟨hmore, hnone⟩ := no_guard_of_stop hstop matcher
      exact taken_of_kept hmore ((kept_reachedGuards _ hnone).runPipeline
        (.cons matcher handler rest) (Subset.refl _) all known path c rfl)
    rw [if_neg hstop] at h ⊢
    rw [Elements.runPipeline]
    cases hasked : d.elementMatcherMatches matcher path c with
    | mk verdict c1 =>
    cases hverdict : o.verdict matcher handler with
    | noMatch =>
      simp only [hverdict] at h ⊢
      obtain ⟨rfl, hsteady, hperformed⟩ := asked_of_steady h hasked
      rw [hverdict]
      refine .behind ?_
      rw [hperformed]
      exact rest.takenPipeline more all known hknown path c1 hsteady
    | error code =>
      simp only [hverdict] at h ⊢
      obtain ⟨rfl, -, hperformed⟩ := asked_of_steady h hasked
      rw [hverdict]
      exact .ended (by rw [hperformed]; rfl) (by simp)
    | matched =>
      simp only [hverdict] at h ⊢
      split at h
      · next hdown =>
        obtain ⟨known', c2, rfl, hstands, hknown', hsome, hsteady, hperformed⟩ :=
          standsDown_of_steady hknown h hasked
        rw [← hsome] at hsteady ⊢
        simp only [hverdict, hstands, hdown, if_true]
        refine .behind ?_
        rw [hperformed]
        exact rest.takenPipeline more all known' hknown' path c2 hsteady
      · next hdown =>
        rw [Bool.not_eq_true] at hdown
        split at h
        · next hgoes =>
          obtain ⟨hmore, hpasses⟩ := Bool.and_eq_true_iff.mp hgoes
          rw [Course.behind, append_assoc, append_assoc] at h
          obtain ⟨known', c2, rfl, hstands, hknown', hsome, hsteady, hperformed⟩ :=
            standsDown_of_steady hknown h hasked
          obtain ⟨hhere, hlater⟩ := Outlook.steady_append.mp hsteady
          obtain ⟨-, hends⟩ := handler.taken _ path c2 hhere
          obtain ⟨houtcome, hran⟩ := hends hmore
          rw [← hsome] at hlater ⊢
          have hrest := rest.takenPipeline more all known' hknown' _ _ hlater.2
          simp only [hverdict, hstands, hdown, Bool.false_eq_true, if_false, hgoes, if_true]
          cases hwalk : handler.handleConfig d path c2 with
          | mk outcome c3 =>
          rw [hwalk] at houtcome hran
          obtain rfl := houtcome.mpr hpasses
          obtain rfl := hran hpasses
          refine .behind ?_
          rw [performs_append, performs_append, hperformed]
          exact hrest
        · next hgoes =>
          obtain ⟨known', c2, rfl, hstands, hknown', hsome, hsteady, hperformed⟩ :=
            standsDown_of_steady hknown h hasked
          obtain ⟨hguards, hends⟩ := handler.taken _ path c2 hsteady
          simp only [hverdict, hstands, hdown, Bool.false_eq_true, if_false, hgoes]
          rw [← hperformed, ← reachedGuards_performs, ← performs_append] at hguards
          cases hwalk : handler.handleConfig d path c2 with
          | mk outcome c3 =>
          rw [hwalk] at hguards hends
          cases outcome with
          | passed =>
            have hnone : (more || rest.hasGuard) = false := by
              by_contra hmore
              rw [Bool.not_eq_false] at hmore
              exact hgoes (Bool.and_eq_true_iff.mpr ⟨hmore, (hends hmore).1.mp rfl⟩)
            obtain ⟨hmore, hrest⟩ := Bool.or_eq_false_iff.mp hnone
            obtain ⟨_, hkept⟩ := (kept_reachedGuards (d := d) c3.reachedGuards hrest).runPipeline
              rest (Subset.refl _) all known' (c3.rewrittenPath.getD c3.uri.path)
              { c3 with rewrittenPath := none } rfl
            exact .ended (hkept.trans hguards) (by simp [hmore])
          | _ => exact .ended hguards (by simp)

theorem Elements.takenFirstMatch : (rest : Elements L A R H) → (more : Bool) →
    (hasProxy : Bool) → (path : Utf8.Str) → (c : Context A R H F Vars X) →
    o.Steady d (rest.courseFirstMatch o more hasProxy).tasks (path, c) →
      (rest.courseFirstMatch o more hasProxy).Taken d more (path, c)
        (rest.runFirstMatch d hasProxy path c)
  | .nil, _, _, _, _, _ =>
    ⟨(append_nil _).symm, fun _ => ⟨iff_of_true rfl rfl, fun _ => rfl⟩⟩
  | .cons matcher handler rest, more, hasProxy, path, c, h => by
    rw [Elements.courseFirstMatch] at h ⊢
    by_cases hstop : (!(more || rest.hasGuard || handler.hasGuard)) = true
    · rw [if_pos hstop]
      obtain ⟨hmore, hnone⟩ := no_guard_of_stop hstop matcher
      exact taken_of_kept hmore ((kept_reachedGuards _ hnone).runFirstMatch
        (.cons matcher handler rest) (Subset.refl _) hasProxy path c rfl)
    rw [if_neg hstop] at h ⊢
    rw [Elements.runFirstMatch]
    cases hasked : d.elementMatcherMatches matcher path c with
    | mk verdict c1 =>
    cases hverdict : o.verdict matcher handler with
    | noMatch =>
      simp only [hverdict] at h ⊢
      obtain ⟨rfl, hsteady, hperformed⟩ := asked_of_steady h hasked
      rw [hverdict]
      refine .behind ?_
      rw [hperformed]
      exact rest.takenFirstMatch more hasProxy path c1 hsteady
    | error code =>
      simp only [hverdict] at h ⊢
      obtain ⟨rfl, -, hperformed⟩ := asked_of_steady h hasked
      rw [hverdict]
      exact .ended (by rw [hperformed]; rfl) (by simp)
    | matched =>
      simp only [hverdict] at h ⊢
      split at h
      · next hdown =>
        obtain ⟨rfl, hsteady, hperformed⟩ := asked_of_steady h hasked
        rw [hverdict, if_pos hdown]
        dsimp only
        rw [if_pos hdown]
        refine .behind ?_
        rw [hperformed]
        exact rest.takenFirstMatch more hasProxy path c1 hsteady
      · next hdown =>
        obtain ⟨rfl, hsteady, hperformed⟩ := asked_of_steady h hasked
        rw [hverdict, if_neg hdown]
        dsimp only
        rw [if_neg hdown]
        refine .behind ?_
        rw [hperformed]
        exact handler.taken more path c1 hsteady

end

end Taken

end Pingclair
