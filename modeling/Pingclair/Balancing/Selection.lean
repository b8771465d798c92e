import Pingclair.Balancing.LeastConn

/-!
# Selecting among ordered backends

The strategies that keep the backends in order make two passes over a pool, the first with the slow
start. Together they find a backend whenever one can take the request.
-/

namespace Pingclair

open ByteText Option

/-- A pass over the items that pass both tests, and then one over those that pass the first: the
choice fails the second test only if all that it could be do. -/
theorem Least.passes {α : Type} {its : List α} {p q : α → Bool} {choice choice' : Option α}
    (h : Least (fun _ => 0) (its.filter fun a => p a && q a) choice)
    (h' : Least (fun _ => 0) (its.filter p) choice') :
    Least (fun a => (!q a).toNat) (its.filter p) (choice.or choice') := by
  cases choice with
  | some a =>
    obtain ⟨hmem, hp, hq⟩ : a ∈ its ∧ p a = true ∧ q a = true := by simpa using h.1
    refine ⟨List.mem_filter.mpr ⟨hmem, hp⟩, ?_⟩
    intro o _
    simp [hq]
  | none =>
    have hq : ∀ a ∈ its.filter p, q a = false := by
      intro a ha
      obtain ⟨hmem, hp⟩ := List.mem_filter.mp ha
      simpa [hp] using List.filter_eq_nil_iff.mp h a hmem
    apply Least.mono h'
    intro a ha b hb _
    rw [hq a ha, hq b hb]

variable {native : NativeLib} {strategy : Strategy}

namespace LeastConnTracker

variable (tracker : LeastConnTracker) (admits : Upstream → Bool)

theorem upstreams_filter :
    (tracker.counters.zipIdx.filter fun entry => admits entry.1.1).map (·.1.1) =
      tracker.upstreams.filter admits := by
  have hups : tracker.upstreams = tracker.counters.zipIdx.map (·.1.1) := by
    rw [upstreams]
    conv_lhs => rw [← List.zipIdx_map_fst 0 tracker.counters]
    rw [List.map_map]
    rfl
  rw [hups, List.filter_map]
  rfl

theorem least_fst_select :
    Least (fun _ => 0) (tracker.upstreams.filter admits)
      ((tracker.select admits).map Prod.fst) := by
  rw [← upstreams_filter, select, map_map]
  apply Least.map
  exact (least_argmin _ _).mono fun _ _ _ _ _ => le_rfl

theorem least_fst_selectFirst :
    Least (fun _ => 0) (tracker.upstreams.filter admits)
      ((tracker.selectFirst admits).map Prod.fst) := by
  rw [← upstreams_filter, selectFirst, map_map, ← List.head?_filter]
  apply Least.map
  cases tracker.counters.zipIdx.filter fun entry => admits entry.1.1 with
  | nil => rfl
  | cons entry entries => exact ⟨List.mem_cons_self, fun _ _ => le_rfl⟩

end LeastConnTracker

namespace Pool

variable (pool : Pool native) (excluded : List SocketAddr) (now : Nat)

def available (backend : Upstream) : Bool :=
  pool.health.isUpBackend now backend && (inetAddress backend).all (· ∉ excluded) &&
    pool.activeReady backend

/-- Whether the slow start lets a request through to a backend at a moment. -/
def ramped (backend : Upstream) : Bool :=
  (inetAddress backend).all (slowStartReady now pool.recoverySlots pool.slowStart)

theorem admits_zero : pool.admits excluded now 0 = pool.available excluded now := by
  funext backend
  rw [admits, available]
  cases inetAddress backend <;> simp [slowStartReady]

theorem fst_take (chosen : Option (Upstream × Nat)) :
    (pool.take chosen).1 = chosen.map Prod.fst := by
  cases chosen <;> rfl

end Pool

namespace Tier

variable (tier : Tier native strategy) (excluded : List SocketAddr) (now : Nat)

def candidates : List Upstream :=
  (backends tier.tracked).filter (tier.pool.available excluded now)

/-- The choice is a candidate, and one that the slow start holds back only if it holds back all. -/
theorem least_select (hordd : strategy.ordered = true) (key : Option Bytes) :
    Least (fun backend => (!tier.pool.ramped now backend).toNat) (tier.candidates excluded now)
      (tier.select now key excluded).1 := by
  obtain ⟨tracker, htr, hups⟩ := map_eq_some_iff.mp (tier.upstreams_eq.trans (if_pos hordd))
  rw [candidates, ← hups]
  -- The two strategies differ only in what a pass selects.
  cases strategy with
  | first =>
    show Least _ _ (tier.pool.take (tier.pool.selectFirst excluded now)).1
    rw [Pool.fst_take, Pool.selectFirst, htr, bind_some, map_or, Pool.admits_zero]
    exact (tracker.least_fst_selectFirst _).passes (tracker.least_fst_selectFirst _)
  | leastConn =>
    show Least _ _ (tier.pool.take (tier.pool.selectLeastConn excluded now)).1
    rw [Pool.fst_take, Pool.selectLeastConn, htr, bind_some, map_or, Pool.admits_zero]
    exact (tracker.least_fst_select _).passes (tracker.least_fst_select _)
  | roundRobin | random | ipHash => cases hordd

/-- A candidate, held back by the slow start only if all candidates are. -/
def Eligible (upstream : Upstream) : Prop :=
  upstream ∈ tier.candidates excluded now ∧
    (tier.pool.ramped now upstream = false →
      ∀ other ∈ tier.candidates excluded now, tier.pool.ramped now other = false)

variable {tier excluded now}

theorem eligible_of_least {upstream : Upstream}
    (h : Least (fun backend => (!tier.pool.ramped now backend).toNat)
      (tier.candidates excluded now) (some upstream)) : tier.Eligible excluded now upstream := by
  refine ⟨h.1, ?_⟩
  intro hramped o ho
  have hle := h.2 o ho
  simp only [hramped] at hle
  cases ho' : tier.pool.ramped now o with
  | false => rfl
  | true => simp [ho'] at hle

end Tier

namespace LoadBalancer

/-- A selection in order or by count finds a backend exactly when one can take the request, and
turns to the backup pool only if no primary backend can. -/
theorem selectExcluding_ordered (balancer : LoadBalancer native strategy)
    (hordered : strategy.ordered = true) (now : Nat) (key : Option Bytes)
    (excluded : List SocketAddr) :
    ((balancer.selectExcluding now key excluded).1.isSome = true ↔
      ∃ tier ∈ balancer.tiers, tier.candidates excluded now ≠ []) ∧
      ∀ upstream, (balancer.selectExcluding now key excluded).1 = some upstream →
        balancer.primary.Eligible excluded now upstream ∨
          balancer.primary.candidates excluded now = [] ∧
            ∃ backup ∈ balancer.backup, backup.Eligible excluded now upstream := by
  obtain ⟨primary, backup⟩ := balancer
  have hpri := primary.least_select excluded now hordered key
  rw [selectExcluding, tiers]
  rcases hsel : primary.select now key excluded with ⟨_ | upstream, after⟩ <;>
    rw [hsel] at hpri
  case some =>
    refine ⟨iff_of_true rfl ⟨primary, List.mem_cons_self, List.ne_nil_of_mem hpri.1⟩, ?_⟩
    rintro _ ⟨⟩
    exact .inl (Tier.eligible_of_least hpri)
  case none =>
    have hnone : primary.candidates excluded now = [] := hpri
    cases backup with
    | none => exact ⟨by simp [hnone], fun _ h => by cases h⟩
    | some backup =>
      have hbk := backup.least_select excluded now hordered key
      simp only [map_some]
      cases hans : (backup.select now key excluded).1 with
      | none =>
        rw [hans] at hbk
        have hnone' : backup.candidates excluded now = [] := hbk
        exact ⟨by simp [hnone, hnone'], fun _ h => by cases h⟩
      | some upstream =>
        rw [hans] at hbk
        refine ⟨iff_of_true rfl ⟨backup, by simp, List.ne_nil_of_mem hbk.1⟩, ?_⟩
        rintro _ ⟨⟩
        exact .inr ⟨hnone, backup, rfl, Tier.eligible_of_least hbk⟩

/-- Two backends in order. The first recovered at moment 1, with a slow start of a second. -/
def recovering : LoadBalancer inOrder .first :=
  let balancer := withBackup [sampleBackend 1, sampleBackend 2] []
  { balancer with
    primary := (balancer.primary.setHealthCheck ⟨1000000000⟩).probed (fun _ => true)
      fun address => if address = sampleAddr 1 then some 1 else some 0 }

theorem selectExcluding_ordered_recovering :
    (recovering.selectExcluding 1000 none []).1.isSome = true :=
  (selectExcluding_ordered recovering rfl 1000 none []).1.mpr
    ⟨recovering.primary, by simp [tiers], by decide⟩

/-- The first backend is still in its slow start and is chosen, although the second is not. -/
theorem selectExcluding_inside_window :
    (recovering.selectExcluding 1000 none []).1 = some (sampleBackend 1) ∧
      recovering.primary.candidates [] 1000 = [sampleBackend 1, sampleBackend 2] ∧
      recovering.primary.pool.recoverySlots (sampleAddr 1) = some 1 ∧
      1000 - 1 < asMillis recovering.primary.pool.slowStart ∧
      recovering.primary.pool.recoverySlots (sampleAddr 2) = some 0 := by
  decide

end LoadBalancer

end Pingclair
