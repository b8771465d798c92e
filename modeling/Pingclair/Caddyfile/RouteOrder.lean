import Mathlib.Data.Prod.Lex
import Pingclair.Caddyfile.Matchers

/-!
# The order of routes

Routes are tried in the order of their keys: by the rank of the directive, then the longer path
pattern first. Patterns that differ only by the star at their end share the place of the first of
them. The key has the place in the file in it, and yet a route does not depend on that.
-/

namespace Pingclair.Caddyfile

open ByteText AsciiCase List Option

def collectPaths (matchers : Bytes → Option AstMatcher) : Nat → AstMatcher → List Bytes
  | 0, _ => []
  | _ + 1, .path patterns => patterns
  | depth + 1, .named name =>
    match matchers name with
    | some named => collectPaths matchers depth named
    | none => []
  | depth + 1, .and left right =>
    collectPaths matchers depth left ++ collectPaths matchers depth right
  | _ + 1, _ => []

def sortPath (matchers : Bytes → Option AstMatcher) (matcher : AstMatcher) : Option Bytes :=
  match collectPaths matchers 17 matcher with
  | [pattern] => some pattern
  | _ => none

def trimWildcard (pattern : Bytes) : Bytes := (pattern.dropSuffix? [star]).getD pattern

structure RouteOrderKey where
  rank : Nat
  pathLength : Option Nat
  unmatched : Bool
  twinAnchor : Nat
  wildcard : Bool
  fileIndex : Nat

/-- Keys compare field by field; a longer path comes first, and no path last. -/
def RouteOrderKey.lex (key : RouteOrderKey) : ℕ ×ₗ (WithBot ℕ)ᵒᵈ ×ₗ Bool ×ₗ ℕ ×ₗ Bool ×ₗ ℕ :=
  toLex (key.rank, toLex (OrderDual.toDual key.pathLength, toLex (key.unmatched,
    toLex (key.twinAnchor, toLex (key.wildcard, key.fileIndex)))))

abbrev Twins := Nat × Bytes → Option Nat

def Twins.anchor (twins : Twins) (rank : Nat) (pattern : Option Bytes) (fileIndex : Nat) :
    Nat × Twins :=
  match pattern with
  | none => (fileIndex, twins)
  | some pattern =>
    let entry := (rank, fold (trimWildcard pattern))
    match twins entry with
    | some first => (first, twins)
    | none => (fileIndex, Function.update twins entry (some fileIndex))

def RouteOrderKey.new (rank : Nat) (matchers : Bytes → Option AstMatcher) (twins : Twins)
    (matcher : Option AstMatcher) (fileIndex : Nat) : RouteOrderKey × Twins :=
  let pattern := matcher.bind (sortPath matchers)
  let (twinAnchor, twins) := twins.anchor rank pattern fileIndex
  ({ rank
     pathLength := pattern.map fun pattern => (trimWildcard pattern).length
     unmatched := matcher.isNone
     twinAnchor
     wildcard := pattern.any fun pattern : Bytes => pattern.getLast? = some star
     fileIndex }, twins)

structure RouteArm (H : Type) where
  matcher : Option AstMatcher
  handler : H

section

variable {H : Type} (rank : H → Nat) (matchers : Bytes → Option AstMatcher)

def keyArms : List (RouteArm H) → Nat → Twins → List (RouteArm H × RouteOrderKey)
  | [], _, _ => []
  | arm :: arms, fileIndex, twins =>
    let (key, twins) := RouteOrderKey.new (rank arm.handler) matchers twins arm.matcher fileIndex
    (arm, key) :: keyArms arms (fileIndex + 1) twins

def sortRoutes (arms : List (RouteArm H)) : List (RouteArm H) :=
  ((keyArms rank matchers arms 0 fun _ => none).mergeSort fun a b => a.2.lex ≤ b.2.lex).map Prod.fst

def RouteArm.pattern (arm : RouteArm H) : Option Bytes := arm.matcher.bind (sortPath matchers)

def RouteArm.text (arm : RouteArm H) : Bytes := (arm.pattern matchers).getD []

/-- The one path pattern of a route is exact, or has a star at its end and nowhere else. -/
def RouteArm.Plain (arm : RouteArm H) : Prop :=
  (arm.pattern matchers).isSome = true ∧ star ∉ trimWildcard (arm.text matchers)

def RouteArm.accepts (path : Bytes) (arm : RouteArm H) : Bool :=
  (PathPattern.of (arm.text matchers)).matches path

/-- The pattern of a route is longer than that of another, the star aside, or it is exact and the
other is the same with a star. -/
def RouteArm.Beats (arm other : RouteArm H) : Prop :=
  (trimWildcard (other.text matchers)).length < (trimWildcard (arm.text matchers)).length ∨
    fold (trimWildcard (other.text matchers)) = fold (trimWildcard (arm.text matchers)) ∧
      (arm.text matchers).getLast? ≠ some star ∧ (other.text matchers).getLast? = some star

/-- A choice of the route that beats all others that accept a path. -/
def Best (path : Bytes) (arms : List (RouteArm H)) : Option (RouteArm H) → Prop
  | none => ∀ arm ∈ arms, arm.accepts matchers path = false
  | some arm => arm ∈ arms ∧ arm.accepts matchers path = true ∧
    ∀ other ∈ arms, other.accepts matchers path = true → other = arm ∨ arm.Beats matchers other

variable {rank matchers} {arms : List (RouteArm H)} {arm other : RouteArm H} {path : Bytes}

theorem mem_keyArms_iff {fileIndex : Nat} {twins : Twins} :
    (∃ key, (arm, key) ∈ keyArms rank matchers arms fileIndex twins) ↔ arm ∈ arms := by
  induction arms generalizing fileIndex twins with
  | nil => simp [keyArms]
  | cons f arms ih => simp [keyArms, exists_or, ih]

/-- The first of the twins is remembered, and so is what was remembered before. -/
theorem Twins.anchor_spec (twins : Twins) (rank : Nat) (pattern : Bytes) (fileIndex : Nat) :
    (twins.anchor rank (some pattern) fileIndex).2 (rank, fold (trimWildcard pattern)) =
        some (twins.anchor rank (some pattern) fileIndex).1 ∧
      ∀ entry first, twins entry = some first →
        (twins.anchor rank (some pattern) fileIndex).2 entry = some first := by
  rw [anchor]
  cases he : twins (rank, fold (trimWildcard pattern)) with
  | some first => exact ⟨he, fun _ _ h => h⟩
  | none =>
    refine ⟨Function.update_self .., fun entry first h => ?_⟩
    refine (Function.update_of_ne ?_ ..).trans h
    rintro rfl
    simp [he] at h

/-- The key of a route with a path pattern; its place in the list is that of the first twin. -/
def RouteArm.key (rank : H → Nat) (matchers : Bytes → Option AstMatcher)
    (anchors : Nat × Bytes → Nat) (arm : RouteArm H) (fileIndex : Nat) : RouteOrderKey where
  rank := rank arm.handler
  pathLength := some (trimWildcard (arm.text matchers)).length
  unmatched := false
  twinAnchor := anchors (rank arm.handler, fold (trimWildcard (arm.text matchers)))
  wildcard := (arm.text matchers).getLast? = some star
  fileIndex

variable (rank matchers) in
theorem exists_anchors (arms : List (RouteArm H)) (fileIndex : Nat) (twins : Twins) :
    ∃ anchors : Nat × Bytes → Nat, (∀ entry first, twins entry = some first →
      anchors entry = first) ∧
      ∀ arm key, (arm, key) ∈ keyArms rank matchers arms fileIndex twins → arm.Plain matchers →
        ∃ place, key = arm.key rank matchers anchors place := by
  induction arms generalizing fileIndex twins with
  | nil => exact ⟨fun entry => (twins entry).getD 0, fun _ _ h => by simp [h], by simp [keyArms]⟩
  | cons first arms ih =>
    obtain ⟨anchors, hbef, hlat⟩ := ih (fileIndex + 1)
      (RouteOrderKey.new (rank first.handler) matchers twins first.matcher fileIndex).2
    refine ⟨anchors, fun entry anchor h => ?_, fun arm key hmem hpl => ?_⟩
    · apply hbef
      rw [RouteOrderKey.new]
      cases first.matcher.bind (sortPath matchers) with
      | none => exact h
      | some pattern => exact (twins.anchor_spec _ pattern _).2 entry anchor h
    · rcases mem_cons.mp hmem with heq | hmem
      · cases heq
        obtain ⟨pattern, hpat⟩ := isSome_iff_exists.mp hpl.1
        obtain ⟨m, hmatcher, hsort⟩ := bind_eq_some_iff.mp hpat
        refine ⟨fileIndex, ?_⟩
        simp only [RouteOrderKey.new, RouteArm.key, RouteArm.text, hpat, hmatcher, hsort,
          bind_some, getD_some, map_some, isNone_some, any_some] at hbef ⊢
        rw [hbef _ _ (twins.anchor_spec _ pattern fileIndex).1]
        rfl
      · exact hlat arm key hmem hpl

theorem trimWildcard_cases (pattern : Bytes) :
    pattern = trimWildcard pattern ++ [star] ∧ pattern.getLast? = some star ∨
      pattern = trimWildcard pattern ∧ pattern.getLast? ≠ some star := by
  rw [trimWildcard]
  cases h : pattern.dropSuffix? [star] with
  | some text =>
    rw [dropSuffix?_eq_some.mp h]
    simp
  | none =>
    refine .inr ⟨rfl, fun hla => ?_⟩
    obtain ⟨text, rfl⟩ := List.getLast?_eq_some_iff.mp hla
    simp [dropSuffix?_eq_some.mpr rfl] at h

/-- The trimmed pattern starts every path that the pattern accepts. -/
theorem RouteArm.Plain.starts (hpl : arm.Plain matchers) (h : arm.accepts matchers path = true) :
    fold (trimWildcard (arm.text matchers)) <+: fold path := by
  have hlit : (PathPattern.of (arm.text matchers)).literalPrefix =
      trimWildcard (arm.text matchers) := by
    rcases trimWildcard_cases (arm.text matchers) with ⟨heq, -⟩ | ⟨heq, -⟩
    · by_cases hni : trimWildcard (arm.text matchers) = []
      · rw [PathPattern.of_eq_any.mpr (by rw [heq, hni]; rfl), hni]
        rfl
      · rw [PathPattern.of_eq_prefixed.mpr ⟨heq, hpl.2, hni⟩]
        rfl
    · rw [PathPattern.of_eq_exact.mpr ⟨heq, hpl.2⟩]
      rfl
  exact hlit ▸ literalPrefix_of_matches h

/-- Of two routes that accept a path, the one whose key is in front beats the other, if their
patterns are different. -/
theorem beats_of_key_le {anchors : Nat × Bytes → Nat} {place place' : Nat}
    (hrank : rank arm.handler = rank other.handler) (hpl : arm.Plain matchers)
    (hpl' : other.Plain matchers) (hac : arm.accepts matchers path = true)
    (hac' : other.accepts matchers path = true)
    (hle : (arm.key rank matchers anchors place).lex ≤
      (other.key rank matchers anchors place').lex) :
    fold (other.text matchers) = fold (arm.text matchers) ∨ arm.Beats matchers other := by
  by_cases hlonger :
      (trimWildcard (other.text matchers)).length < (trimWildcard (arm.text matchers)).length
  · exact .inr (.inl hlonger)
  simp only [RouteOrderKey.lex, RouteArm.key, Prod.Lex.toLex_le_toLex, hrank] at hle
  rcases hle with h | ⟨-, h | ⟨hlength, hle⟩⟩
  · exact absurd h (lt_irrefl _)
  · exact absurd (WithBot.coe_lt_coe.mp (OrderDual.toDual_lt_toDual.mp h)) hlonger
  -- the lengths are equal, so the patterns are twins, which the wildcards tell apart
  have htr : fold (trimWildcard (arm.text matchers)) =
      fold (trimWildcard (other.text matchers)) := by
    have hlen : (trimWildcard (arm.text matchers)).length =
        (trimWildcard (other.text matchers)).length := Option.some.inj hlength
    apply (prefix_of_prefix_length_le (hpl.starts hac) (hpl'.starts hac') _).eq_of_length
    all_goals simp [hlen]
  rw [htr] at hle
  rcases trimWildcard_cases (arm.text matchers) with ⟨heq, hla⟩ | ⟨heq, hla⟩ <;>
    rcases trimWildcard_cases (other.text matchers) with ⟨heq', hla'⟩ | ⟨heq', hla'⟩
  · exact .inl (by rw [heq, heq', fold_append, fold_append, htr])
  · simp [hla, hla', Bool.lt_iff] at hle
  · exact .inr (.inr ⟨htr.symm, hla, hla'⟩)
  · exact .inl (by rw [heq, heq', htr])

theorem rel_of_find?_eq_some {α : Type} {r : α → α → Prop} {p : α → Bool} {its : List α}
    {a b : α} (hsrt : its.Pairwise r) (hfind : its.find? p = some a) (hb : b ∈ its)
    (hp : p b = true) : b = a ∨ r a b := by
  obtain ⟨-, before, after, rfl, hbef⟩ := List.find?_eq_some_iff_append.mp hfind
  rcases mem_append.mp hb with hb | hb
  · exact absurd hp (by simpa using hbef b hb)
  · rcases mem_cons.mp hb with rfl | hb
    · exact .inl rfl
    · exact .inr (rel_of_pairwise_cons (pairwise_append.mp hsrt).2.1 hb)

theorem best_sortRoutes (hrank : ∀ arm ∈ arms, ∀ other ∈ arms,
      rank arm.handler = rank other.handler) (hpl : ∀ arm ∈ arms, arm.Plain matchers)
    (hdis : (arms.map fun arm => fold (arm.text matchers)).Nodup) (path : Bytes) :
    Best matchers path arms ((sortRoutes rank matchers arms).find? (·.accepts matchers path)) := by
  obtain ⟨anchors, -, hkeys⟩ := exists_anchors rank matchers arms 0 fun _ => none
  rw [sortRoutes, List.find?_map]
  set keyed := keyArms rank matchers arms 0 fun _ => none
  cases hfind : (keyed.mergeSort fun a b => a.2.lex ≤ b.2.lex).find?
      ((·.accepts matchers path) ∘ Prod.fst) with
  | none =>
    intro arm harm
    obtain ⟨key, hkey⟩ := mem_keyArms_iff.mpr harm
    simpa using List.find?_eq_none.mp hfind _ (mem_mergeSort.mpr hkey)
  | some entry =>
    have he := mem_mergeSort.mp (mem_of_find?_eq_some hfind)
    have harm : entry.1 ∈ arms := mem_keyArms_iff.mp ⟨entry.2, he⟩
    have hacc := List.find?_some hfind
    have hsrt : (keyed.mergeSort fun a b => a.2.lex ≤ b.2.lex).Pairwise
        fun a b => decide (a.2.lex ≤ b.2.lex) = true :=
      pairwise_mergeSort (by simpa using fun _ _ _ _ _ _ => le_trans)
        (by simpa using fun _ _ _ _ => le_total _ _) keyed
    refine ⟨harm, hacc, fun other ho hacc' => ?_⟩
    obtain ⟨key, hkey⟩ := mem_keyArms_iff.mpr ho
    rcases rel_of_find?_eq_some hsrt hfind (mem_mergeSort.mpr hkey) hacc' with
      heq | hle
    · exact .inl (congrArg Prod.fst heq)
    obtain ⟨place, hplace⟩ := hkeys _ _ he (hpl _ harm)
    obtain ⟨place', rfl⟩ := hkeys _ _ hkey (hpl _ ho)
    rw [hplace, decide_eq_true_iff] at hle
    exact (beats_of_key_le (hrank _ harm _ ho) (hpl _ harm) (hpl _ ho) hacc
      hacc' hle).imp_left (inj_on_of_nodup_map hdis ho harm)

theorem RouteArm.Beats.asymm (h : arm.Beats matchers other) : ¬ other.Beats matchers arm := by
  have hlen {s t : Bytes} (h : fold s = fold t) : s.length = t.length := by
    simpa using congrArg List.length h
  rcases h with hlt | ⟨hsm, hex, -⟩
  · rintro (hlt' | ⟨hsm', -⟩)
    · omega
    · exact hlt.ne' (hlen hsm')
  · rintro (hlt' | ⟨-, -, hwl⟩)
    · exact hlt'.ne' (hlen hsm)
    · exact hex hwl

theorem Best.unique {arms' : List (RouteArm H)} {choice choice' : Option (RouteArm H)}
    (h : Best matchers path arms choice) (h' : Best matchers path arms' choice')
    (hperm : arms'.Perm arms) : choice' = choice := by
  cases choice with
  | none =>
    cases choice' with
    | none => rfl
    | some arm => cases (h arm (hperm.mem_iff.mp h'.1)).symm.trans h'.2.1
  | some arm =>
    cases choice' with
    | none => cases (h' arm (hperm.mem_iff.mpr h.1)).symm.trans h.2.1
    | some o =>
      obtain ⟨harm, hac, hbest⟩ := h
      obtain ⟨ho, hac', hbest'⟩ := h'
      rcases hbest o (hperm.mem_iff.mp ho) hac' with rfl | hbeats
      · rfl
      rcases hbest' arm (hperm.mem_iff.mpr harm) hac with rfl | hbeats'
      · rfl
      exact (hbeats.asymm hbeats').elim

/-- Routes of one directive with different patterns, each exact or with one star at its end:
whatever order they are written in, the one that answers a path is the best. -/
theorem find?_sortRoutes (hrank : ∀ arm ∈ arms, ∀ other ∈ arms,
      rank arm.handler = rank other.handler) (hplain : ∀ arm ∈ arms, arm.Plain matchers)
    (hdistinct : (arms.map fun arm => fold (arm.text matchers)).Nodup) (path : Bytes) :
    ∃ choice, Best matchers path arms choice ∧ ∀ arms' : List (RouteArm H), arms'.Perm arms →
      (sortRoutes rank matchers arms').find? (·.accepts matchers path) = choice := by
  have hbest := best_sortRoutes hrank hplain hdistinct path
  refine ⟨_, hbest, fun arms' hperm => ?_⟩
  have hmem {arm : RouteArm H} (harm : arm ∈ arms') : arm ∈ arms := hperm.mem_iff.mp harm
  apply hbest.unique (best_sortRoutes _ _ _ path) hperm
  · exact fun arm harm other ho => hrank arm (hmem harm) other (hmem ho)
  · exact fun arm harm => hplain arm (hmem harm)
  · exact (hperm.map _).nodup_iff.mpr hdistinct

end

def twinRoutes : List (RouteArm Unit) :=
  [⟨some (.path [ascii "/a*"]), ()⟩, ⟨some (.path [ascii "/a"]), ()⟩]

theorem find?_sortRoutes_twinRoutes :
    ∃ choice, Best (fun _ => none) (ascii "/A") twinRoutes choice ∧
      ∀ arms : List (RouteArm Unit), arms.Perm twinRoutes →
        (sortRoutes (fun _ => 0) (fun _ => none) arms).find?
          (·.accepts (fun _ => none) (ascii "/A")) = choice :=
  find?_sortRoutes (fun _ _ _ _ => rfl) (by simp [twinRoutes, RouteArm.Plain]; decide) (by decide)
    (ascii "/A")

end Pingclair.Caddyfile
