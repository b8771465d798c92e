import Pingclair.Http.Encoding

/-!
# The order of the codings

The codings that are tried are the acceptable ones, each once, by the client's quality and then by
the server's order. A turn of the iterator rescans the field and finds the best one that is left.
-/

namespace Pingclair.Encoding

open ByteText

variable (Q : QualityLib) (field : Bytes)

def ownQuality (coding : Bytes) : Option Q.Quality :=
  ((entries Q field).find? fun e => sameCoding e.token coding).map AcceptedCoding.q

def wildcardQuality : Option Q.Quality :=
  ((entries Q field).find? fun e => e.token == ascii "*").map AcceptedCoding.q

/-- The coding's own entry or, without one, the first wildcard is zero. -/
def Refuses (coding : Bytes) : Prop :=
  ownQuality Q field coding = some Q.zero ∨
    ownQuality Q field coding = none ∧ wildcardQuality Q field = some Q.zero

/-- A coding that is rated, and not below the body as it is, or a last resort. -/
def Acceptable (coding : Bytes) : Prop :=
  (∃ q, ownQuality Q field coding = some q ∧ Q.zero < q ∧
    ∀ f, ownQuality Q field (ascii "identity") = some f → f ≤ q) ∨
  ownQuality Q field coding = none ∧ wildcardQuality Q field ≠ some Q.zero ∧
    Refuses Q field (ascii "identity")

/-- The client's quality of a coding. Last resorts have the least one. -/
def rating (coding : Bytes) : Q.Quality :=
  (ownQuality Q field coding).getD Q.zero

variable {T : Type} (token : T → Bytes)

/-- The offered codings and their places. Only the first 64 count. -/
def places (offered : List T) : List (T × Nat) := (offered.take 64).zipIdx

def Leads (x y : T × Nat) : Prop :=
  rating Q field (token y.1) < rating Q field (token x.1) ∨
    rating Q field (token y.1) = rating Q field (token x.1) ∧ x.2 < y.2

def Left (yielded : List Nat) (x : T × Nat) : Prop :=
  x.2 ∉ yielded ∧ Acceptable Q field (token x.1)

/-- What the search has found among the first offered codings. -/
def Found (yielded : List Nat) (l : List (T × Nat)) : Option (Nat × Q.Quality) → Prop
  | none => ∀ x ∈ l, ¬ Left Q field token yielded x
  | some b => ∃ x ∈ l, Left Q field token yielded x ∧
      b = (x.2, rating Q field (token x.1)) ∧
      ∀ y ∈ l, Left Q field token yielded y → y = x ∨ Leads Q field token x y

variable {Q field token}

theorem mentionedQuality_eq (coding : Bytes) : mentionedQuality Q field coding =
    (ownQuality Q field coding).or ((wildcardQuality Q field).filter (· = Q.zero)) := by
  unfold mentionedQuality ownQuality
  cases (entries Q field).find? fun e => sameCoding e.token coding <;> rfl

theorem rankedQuality_eq_some {coding : Bytes} {q : Q.Quality} :
    rankedQuality Q (identityRating Q field) (mentionedQuality Q field coding) = some q ↔
      Acceptable Q field coding ∧ rating Q field coding = q := by
  have hz (r : Q.Quality) : ¬ Q.zero < r ↔ r = Q.zero := by
    rw [not_lt, le_antisymm_iff, and_iff_left (Q.zero_le r)]
  unfold identityRating Acceptable Refuses rating
  rw [mentionedQuality_eq, mentionedQuality_eq]
  generalize ownQuality Q field coding = a
  generalize ownQuality Q field (ascii "identity") = b
  generalize wildcardQuality Q field = w
  cases a <;> cases b <;> cases w <;> grind [rankedQuality]

theorem found_rankStep {yielded : List Nat} {l : List (T × Nat)} {z : T × Nat}
    {best : Option (Nat × Q.Quality)} (hl : ∀ x ∈ l, x.2 < z.2)
    (hf : Found Q field token yielded l best) :
    Found Q field token yielded (l ++ [z]) (rankStep Q field token yielded best z) := by
  by_cases hz : Left Q field token yielded z
  · have hq := rankedQuality_eq_some.mpr ⟨hz.2, rfl⟩
    cases best with
    | none =>
      simp only [rankStep, if_neg hz.1, hq, Option.all_none, if_true]
      exact ⟨z, by simp, hz, rfl, by grind [Found]⟩
    | some b =>
      obtain ⟨x, hx, hy, rfl, hb⟩ := hf
      simp only [rankStep, if_neg hz.1, hq, Option.all_some, decide_eq_true_eq]
      split
      next h => exact ⟨z, by simp, hz, rfl, by grind [Leads]⟩
      next h => exact ⟨x, by simp [hx], hy, rfl, by grind [Leads]⟩
  · have hs : rankStep Q field token yielded best z = best := by
      have hn := @rankedQuality_eq_some Q field (token z.1)
      grind [rankStep, Left]
    rw [hs]
    cases best with
    | none => grind [Found]
    | some b =>
      obtain ⟨x, hx, hy, hb⟩ := hf
      exact ⟨x, by simp [hx], hy, by grind⟩

theorem found_foldl (yielded : List Nat) {l : List (T × Nat)}
    (hl : l.Pairwise fun x y => x.2 < y.2) :
    Found Q field token yielded l (l.foldl (rankStep Q field token yielded) none) := by
  induction l using List.reverseRecOn with
  | nil => simp [Found]
  | append_singleton l z ih =>
    rw [List.pairwise_append] at hl
    rw [List.foldl_append]
    exact found_rankStep (fun x hx => hl.2.2 x hx z (by simp)) (ih hl.1)

theorem pairwise_places (offered : List T) : (places offered).Pairwise fun x y => x.2 < y.2 := by
  rw [← List.pairwise_map (f := Prod.snd) (R := (· < ·)), places, List.zipIdx_map_snd]
  exact List.pairwise_lt_range'

theorem getElem?_of_mem_places {offered : List T} {x : T × Nat} (hx : x ∈ places offered) :
    offered[x.2]? = some x.1 := by
  rw [places, List.mem_zipIdx_iff_getElem?] at hx
  grind

theorem rankedFrom_spec {offered : List T} {turns : Nat} {yielded : List Nat}
    (ht : ((places offered).filter fun x => x.2 ∉ yielded).length ≤ turns) :
    ∃ l : List (T × Nat), rankedFrom Q field offered token turns yielded = l.map Prod.fst ∧
      (∀ x, x ∈ l ↔ x ∈ places offered ∧ Left Q field token yielded x) ∧
      l.Pairwise (Leads Q field token) := by
  induction turns generalizing yielded with
  | zero =>
    refine ⟨[], rfl, fun x => ?_, .nil⟩
    have hn := List.filter_eq_nil_iff.mp (List.length_eq_zero_iff.mp (Nat.le_zero.mp ht)) x
    grind [Left]
  | succ n ih =>
    have hf := @found_foldl Q field T token yielded _ (pairwise_places offered)
    rw [rankedFrom, rankedNext, ← places]
    cases hb : (places offered).foldl (rankStep Q field token yielded) none with
    | none =>
      rw [hb] at hf
      exact ⟨[], rfl, fun x => by grind [Found], .nil⟩
    | some b =>
      rw [hb] at hf
      obtain ⟨x, hx, hy, rfl, hlead⟩ := hf
      have hlt : ((places offered).filter fun y => y.2 ∉ x.2 :: yielded).length ≤ n := by
        have he : ((places offered).filter fun y => y.2 ∉ x.2 :: yielded) =
            ((places offered).filter fun y => y.2 ∉ yielded).filter (·.2 ≠ x.2) := by
          simp [List.filter_filter]
        have hf : x ∈ (places offered).filter fun y => y.2 ∉ yielded := by
          simpa using ⟨hx, hy.1⟩
        have hl := List.length_filter_lt_length_iff_exists (p := (·.2 ≠ x.2)).mpr ⟨x, hf, by simp⟩
        rw [he]
        omega
      obtain ⟨l, hl, hm, hs⟩ := ih hlt
      refine ⟨x :: l, by simp [getElem?_of_mem_places hx, hl], fun y => ?_,
        List.pairwise_cons.mpr ⟨?_, hs⟩⟩
      · have hi (y) := @getElem?_of_mem_places T offered y
        grind [Left]
      · grind [Left]

variable (Q field token)

/-- The codings are the acceptable ones at the first 64 places, in a strict order: none twice, by
the client's quality, and by the server's order among equals. -/
theorem ranked_acceptable_sorted (offered : List T) : ∃ l : List (T × Nat),
    ranked Q field offered token = l.map Prod.fst ∧
    (∀ x, x ∈ l ↔ x ∈ places offered ∧ Acceptable Q field (token x.1)) ∧
    l.Pairwise (Leads Q field token) ∧
    ∀ x ∈ l, ¬ Refuses Q field (token x.1) := by
  obtain ⟨l, hr, hm, hp⟩ := @rankedFrom_spec Q field T token offered 64 [] (by simp [places])
  have ha (x) : x ∈ l ↔ x ∈ places offered ∧ Acceptable Q field (token x.1) := by
    simp [hm, Left]
  refine ⟨l, hr, ha, hp, fun x hx => ?_⟩
  have := ((ha x).mp hx).2
  grind [Acceptable, Refuses]

end Pingclair.Encoding
