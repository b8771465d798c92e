import Pingclair.Http.HeaderMap

/-!
# Field names with underscores

A CGI backend reads `x_probe` and `x-probe` as one variable, so a field with an underscore is
dropped unless an allowlist admits it, and then its hyphenated spelling is dropped.
-/

namespace Pingclair.HeaderAlias

open ByteText AsciiCase List

abbrev underscore : UInt8 := 0x5F
abbrev hyphen : UInt8 := 0x2D

def underscoreNamed (name : Bytes) : Bool := name.contains underscore

def hyphened (s : Bytes) : Bytes := s.map fun b => if b = underscore then hyphen else b

def wellFormed (entry : Bytes) : Bool :=
  let name := (entry.dropSuffix? [star]).getD entry
  name.contains underscore && !name.contains star && (fold name).all isNameByte

structure HeaderAliasPolicy where
  exact : List Bytes
  aliases : List Bytes
  prefixes : List (Bytes × Bytes)

namespace HeaderAliasPolicy

def add (policy : HeaderAliasPolicy) (entry : Bytes) : HeaderAliasPolicy :=
  let name := fold entry
  match name.dropSuffix? [star] with
  | some front => { policy with prefixes := policy.prefixes ++ [(front, hyphened front)] }
  | none =>
    { policy with aliases := hyphened name :: policy.aliases, exact := name :: policy.exact }

def new (entries : List Bytes) : HeaderAliasPolicy := entries.foldl add ⟨[], [], []⟩

variable (policy : HeaderAliasPolicy)

def allows (key : Bytes) : Bool :=
  policy.exact.contains key ||
    (!key.contains dot && policy.prefixes.any fun entry => entry.1.isPrefixOf key)

def suppresses (key : Bytes) : Bool :=
  !key.contains dot &&
    (policy.aliases.contains key || policy.prefixes.any fun entry => entry.2.isPrefixOf key)

/-- A round of the loop, at the names that were seen and those that are dropped. -/
def visit (state : List Bytes × List Bytes) (name : Bytes) : List Bytes × List Bytes :=
  if underscoreNamed name then
    if policy.allows name then
      (name :: state.1, if state.1.contains name then name :: state.2 else state.2)
    else (state.1, name :: state.2)
  else (state.1, if policy.suppresses name then name :: state.2 else state.2)

def dropped (names : List Bytes) : List Bytes := (names.foldl (visit policy) ([], [])).2

/-- A name with an underscore that the allowlist lets through: it is admitted, and comes once. -/
def Admitted (names : List Bytes) (name : Bytes) : Prop :=
  underscoreNamed name = true ∧ policy.allows name = true ∧ names.count name = 1

def Kept (names : List Bytes) (name : Bytes) : Prop :=
  name ∈ names ∧ name ∉ policy.dropped names

/-- Every entry carries its hyphenated spelling. -/
structure Paired : Prop where
  exact : ∀ name ∈ policy.exact, hyphened name ∈ policy.aliases
  prefixes : ∀ entry ∈ policy.prefixes, entry.2 = hyphened entry.1

theorem paired_new (entries : List Bytes) : (new entries).Paired := by
  rw [new]
  induction entries using List.reverseRecOn with
  | nil => exact ⟨by simp, by simp⟩
  | append_singleton entries entry ih =>
    rw [foldl_concat, add]
    split
    · exact ⟨ih.exact, forall_mem_append.mpr ⟨ih.prefixes, forall_mem_singleton.mpr rfl⟩⟩
    · refine ⟨forall_mem_cons.mpr ⟨mem_cons_self, fun name hname => ?_⟩, ih.prefixes⟩
      exact mem_cons_of_mem _ (ih.exact name hname)

variable {name : Bytes} {names : List Bytes}

theorem mem_seen_iff :
    name ∈ (names.foldl (visit policy) ([], [])).1 ↔
      name ∈ names ∧ underscoreNamed name = true ∧ policy.allows name = true := by
  induction names using List.reverseRecOn with
  | nil => simp
  | append_singleton names l ih =>
    rw [foldl_concat, visit]
    grind

/-- A name is dropped when it has an underscore and is not admitted or comes again, or when it is
the hyphenated spelling of what the allowlist has. -/
theorem mem_dropped_iff :
    name ∈ policy.dropped names ↔ name ∈ names ∧
      if underscoreNamed name then policy.allows name = false ∨ 1 < names.count name
      else policy.suppresses name = true := by
  rw [dropped]
  induction names using List.reverseRecOn with
  | nil => simp
  | append_singleton names l ih =>
    have hc : 0 < names.count l ↔ l ∈ names := count_pos_iff
    have hse : l ∈ (names.foldl (visit policy) ([], [])).1 ↔ _ := mem_seen_iff policy
    rw [foldl_concat, visit]
    grind

theorem underscore_not_mem_hyphened (s : Bytes) : underscore ∉ hyphened s := by
  simp only [hyphened, mem_map, not_exists, not_and]
  intro b _
  split
  · decide
  · assumption

theorem hyphened_of_not {s : Bytes} (h : underscoreNamed s = false) : hyphened s = s := by
  have hn : underscore ∉ s := by simpa [underscoreNamed] using h
  refine (map_congr_left fun b hb => if_neg ?_).trans (map_id s)
  rintro rfl
  exact hn hb

theorem dot_mem_hyphened {s : Bytes} : dot ∈ hyphened s ↔ dot ∈ s := by
  have hd (b : UInt8) : (if b = underscore then hyphen else b) = dot ↔ b = dot := by
    split
    · next h => simp [h, dot, hyphen, underscore]
    · rfl
  simp [hyphened, hd]

variable {policy}

/-- The hyphenated spelling of an admitted name is suppressed, unless it has a dot. -/
theorem suppresses_hyphened (hpaired : policy.Paired) (hallows : policy.allows name = true) :
    policy.suppresses (hyphened name) = true ↔ dot ∉ name := by
  simp only [suppresses, Bool.and_eq_true, Bool.not_eq_true', contains_eq_mem,
    decide_eq_false_iff_not, dot_mem_hyphened]
  refine ⟨And.left, fun hd => ⟨hd, ?_⟩⟩
  simp only [allows, Bool.or_eq_true, Bool.and_eq_true, contains_eq_mem, decide_eq_true_eq,
    any_eq_true, isPrefixOf_iff_prefix] at hallows ⊢
  rcases hallows with hex | ⟨-, entry, he, hfrt⟩
  · exact .inl (hpaired.exact name hex)
  · refine .inr ⟨entry, he, ?_⟩
    rw [hpaired.prefixes entry he]
    exact hfrt.map _

theorem left_iff :
    policy.Kept names name ↔ policy.Admitted names name ∨
      name ∈ names ∧ underscoreNamed name = false ∧ policy.suppresses name = false := by
  have hc : 0 < names.count name ↔ name ∈ names := count_pos_iff
  simp only [Kept, Admitted, mem_dropped_iff]
  grind

/-- Names that are left in place read differently exactly when no two admitted names read the
same, and no admitted name with a dot comes with its hyphenated spelling. -/
theorem kept_apart_iff (entries names : List Bytes) :
    (∀ a b, (new entries).Kept names a → (new entries).Kept names b →
        hyphened a = hyphened b → a = b) ↔
      (∀ a b, (new entries).Admitted names a → (new entries).Admitted names b →
        hyphened a = hyphened b → a = b) ∧
      ∀ a, (new entries).Admitted names a → hyphened a ∈ names → dot ∉ a := by
  have hpl (a : Bytes) : underscoreNamed (hyphened a) = false := by
    simpa [underscoreNamed] using underscore_not_mem_hyphened a
  constructor
  · refine fun hapart => ⟨fun a b ha hb => hapart a b (left_iff.mpr (.inl ha))
      (left_iff.mpr (.inl hb)), fun a ha hmem hd => ?_⟩
    have hn : (new entries).suppresses (hyphened a) = false := by
      rw [← Bool.not_eq_true, suppresses_hyphened (paired_new entries) ha.2.1]
      exact not_not.mpr hd
    have heq := hapart a _ (left_iff.mpr (.inl ha)) (left_iff.mpr (.inr ⟨hmem, hpl a, hn⟩))
      (hyphened_of_not (hpl a)).symm
    exact absurd (heq ▸ ha.1) (by simp [hpl])
  · rintro ⟨hadm, hdotted⟩ a b ha hb hsm
    -- An admitted name comes with its hyphenated spelling.
    have hmixed {a b : Bytes} (ha : (new entries).Admitted names a) (hb : b ∈ names)
        (hund : underscoreNamed b = false) (hsm : hyphened a = hyphened b) :
        (new entries).suppresses b = true := by
      rw [hyphened_of_not hund] at hsm
      subst hsm
      exact (suppresses_hyphened (paired_new entries) ha.2.1).mpr (hdotted a ha hb)
    rcases left_iff.mp ha with ha | ⟨ha, hund, hkp⟩ <;>
      rcases left_iff.mp hb with hb | ⟨hb, hund', hkp'⟩
    · exact hadm a b ha hb hsm
    · exact absurd (hmixed ha hb hund' hsm) (by simp [hkp'])
    · exact absurd (hmixed hb ha hund hsm.symm) (by simp [hkp])
    · rwa [hyphened_of_not hund, hyphened_of_not hund'] at hsm

/-- `Webhook_*` lets both through. -/
theorem kept_both_spellings :
    wellFormed (ascii "Webhook_*") = true ∧
      (new [ascii "Webhook_*"]).dropped [ascii "webhook_a_b", ascii "webhook_a-b"] = [] ∧
      hyphened (ascii "webhook_a_b") = hyphened (ascii "webhook_a-b") := by
  decide +kernel

end HeaderAliasPolicy

end Pingclair.HeaderAlias
