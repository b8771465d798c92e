import Mathlib.Data.List.AList
import Pingclair.Http.Host

/-!
# Certificates for HTTP/3

The table of the HTTP/3 handshake has certificates by name, and the names of sites that turned
HTTP/3 off. Both may be wildcards. Over TCP a wildcard covers one label, and an exact name goes
before it. Here exclusion and selection are two scans, and both let a wildcard cover any number of
labels.
-/

namespace Pingclair

open ByteText AsciiCase List Option

def certificateName (name : Bytes) : Bytes :=
  let name := stripDot name
  if name.any isUpper then fold name else name

theorem certificateName_eq (name : Bytes) : certificateName name = canonicalHost name := by
  unfold certificateName canonicalHost
  cases h : (stripDot name).any isUpper with
  | true => simp [h]
  | false => simp [h, fold_of_no_upper h]

def coversSuffix (servername suffix : Bytes) : Bool :=
  (servername.dropSuffix? suffix).any fun rest => [dot].isSuffixOf rest

def wildcardCovers (servername pattern : Bytes) : Bool :=
  (pattern.dropPrefix? starDot).any (coversSuffix servername)

def coveredBy (patterns : List Bytes) (servername : Bytes) : Bool :=
  patterns.contains servername || patterns.any (wildcardCovers servername)

/-- Certificates by name, and the names that are kept off HTTP/3, all in one spelling. -/
structure CertTable (E : Type) where
  certs : AList fun _ : Bytes => E
  excluded : List Bytes
  certs_spelled : ∀ name ∈ certs, name ∈ Set.range certificateName
  excluded_spelled : ∀ name ∈ excluded, name ∈ Set.range certificateName

namespace CertTable

variable {E : Type}

def empty : CertTable E where
  certs := ∅
  excluded := []
  certs_spelled := fun name h => absurd h (AList.notMem_empty name)
  excluded_spelled := fun _ h => absurd h not_mem_nil

def upsert (table : CertTable E) (name : Bytes) (entry : E) : CertTable E where
  certs := table.certs.insert (certificateName name) entry
  excluded := table.excluded
  certs_spelled := by
    intro other h
    rcases (AList.mem_insert _).mp h with rfl | h
    · exact ⟨name, rfl⟩
    · exact table.certs_spelled other h
  excluded_spelled := table.excluded_spelled

def setExcludedNames (table : CertTable E) (names : List Bytes) : CertTable E where
  certs := table.certs
  excluded := names.map certificateName
  certs_spelled := table.certs_spelled
  excluded_spelled := by
    intro name h
    obtain ⟨raw, -, rfl⟩ := mem_map.mp h
    exact ⟨raw, rfl⟩

def lookup (table : CertTable E) (order : List (Sigma fun _ : Bytes => E)) (servername : Bytes) :
    Option E :=
  let servername := certificateName servername
  if coveredBy table.excluded servername then none
  else match table.certs.lookup servername with
    | some entry => some entry
    | none => order.findSome? fun item =>
      if wildcardCovers servername item.1 then some item.2 else none

def knows (table : CertTable E) (name : Bytes) : Bool :=
  (table.certs.lookup name).isSome || table.excluded.contains name

/-- The most specific name of the table that covers a server name: that name itself, or else the
wildcard for its first label. -/
def mostSpecific (table : CertTable E) (servername : Bytes) : Option Bytes :=
  let servername := canonicalHost servername
  if table.knows servername then some servername else (wildcardOf servername).filter table.knows

def selected (table : CertTable E) (servername : Bytes) : Option E :=
  (table.mostSpecific servername).bind fun name =>
    if table.excluded.contains name then none else table.certs.lookup name

/-- Each order gives the certificate of the most specific name. -/
def Right (table : CertTable E) (servername : Bytes) : Prop :=
  ∀ order, order.Perm table.certs.entries →
    table.lookup order servername = table.selected servername

/-- When the answer is right, by what the table has. A server name may be settled by an exclusion of
its own. Otherwise an excluded wildcard, however far above, must not cover it, unless nothing is
published for it; and a published wildcard that covers it must have the certificate of the one for
its first label, unless it is published itself. -/
def Settled (table : CertTable E) (name : Bytes) : Prop :=
  name ∈ table.excluded ∨
  (name ∉ table.certs ∧ ∃ pattern ∈ wildcardOf name, pattern ∈ table.excluded) ∨
  ((∃ pattern ∈ table.excluded, wildcardCovers name pattern = true) ∧
    name ∉ table.certs ∧ ∀ pattern ∈ wildcardOf name, pattern ∉ table.certs) ∨
  ((∀ pattern ∈ table.excluded, wildcardCovers name pattern = false) ∧
    (name ∈ table.certs ∨ ∀ pattern ∈ table.certs, wildcardCovers name pattern = true →
      table.certs.lookup pattern = (wildcardOf name).bind fun own => table.certs.lookup own))

/-- A scan that gives the same in every order gives what each hit gives. -/
theorem forall_perm_findSome?_iff {α β : Type} {f : α → Option β} {its : List α} {x : Option β} :
    (∀ order : List α, order.Perm its → order.findSome? f = x) ↔
      (∀ a ∈ its, ∀ b, f a = some b → x = some b) ∧ ((∀ a ∈ its, f a = none) → x = none) := by
  constructor
  · intro h
    refine ⟨fun a ha b hb => ?_, fun hnone => ?_⟩
    · obtain ⟨before, after, rfl⟩ := append_of_mem ha
      rw [← h (a :: (before ++ after)) perm_middle.symm, List.findSome?_cons, hb]
    · rw [← h its (.refl _), List.findSome?_eq_none_iff.mpr hnone]
  · rintro ⟨hhit, hmi⟩ order hperm
    cases hfd : order.findSome? f with
    | none =>
      rw [List.findSome?_eq_none_iff] at hfd
      exact (hmi fun a ha => hfd a (hperm.mem_iff.mpr ha)).symm
    | some b =>
      obtain ⟨a, ha, hb⟩ := exists_of_findSome?_eq_some hfd
      exact (hhit a (hperm.mem_iff.mp ha) b hb).symm

variable {table : CertTable E} {name pattern : Bytes}

theorem wildcardCovers_of_mem (h : pattern ∈ wildcardOf name) :
    wildcardCovers name pattern = true := by
  obtain ⟨l, suffix, rfl, -, -, rfl⟩ := wildcardOf_eq_some_iff.mp h
  have hrest : (l ++ dot :: suffix).dropSuffix? suffix = some (l ++ [dot]) :=
    dropSuffix?_eq_some.mpr (by simp)
  have hpat : (starDot ++ suffix).dropPrefix? starDot = some suffix := dropPrefix?_eq_some.mpr rfl
  rw [wildcardCovers, hpat, any_some, coversSuffix, hrest, any_some, isSuffixOf_iff_suffix]
  exact ⟨l, rfl⟩

theorem coveredBy_eq_false_iff {patterns : List Bytes} : coveredBy patterns name = false ↔
    name ∉ patterns ∧ ∀ pattern ∈ patterns, wildcardCovers name pattern = false := by
  simp [coveredBy]

theorem lookup_eq_none_iff_notMem : table.certs.lookup name = none ↔ name ∉ table.certs :=
  AList.lookup_eq_none

variable {servername : Bytes}

/-- What is selected for a name that is neither published nor excluded. -/
theorem selected_of_unknown (hn : canonicalHost servername = name) (hcts : name ∉ table.certs)
    (hexc : name ∉ table.excluded) :
    table.selected servername = (wildcardOf name).bind fun own =>
      if table.excluded.contains own then none else table.certs.lookup own := by
  have hunknown : table.knows name = false := by
    simp [knows, lookup_eq_none_iff_notMem.mpr hcts, hexc]
  unfold selected mostSpecific
  simp only [hn, hunknown, Bool.false_eq_true, if_false]
  cases wildcardOf name with
  | none => rfl
  | some own =>
    rw [filter_some]
    cases hkn : table.knows own with
    | true => rw [if_pos rfl]
    | false =>
      have hlk : table.certs.lookup own = none := by
        simp only [knows, Bool.or_eq_false_iff, isSome_eq_false_iff, isNone_iff_eq_none] at hkn
        exact hkn.1
      simp [hlk]

/-- What is selected for a name that is known itself. -/
theorem selected_of_known (hn : canonicalHost servername = name) (hkn : table.knows name = true) :
    table.selected servername =
      if table.excluded.contains name then none else table.certs.lookup name := by
  unfold selected mostSpecific
  simp [hn, hkn]

/-- Among the names that no exclusion covers. -/
theorem right_iff_of_uncovered (hn : canonicalHost servername = name)
    (h : coveredBy table.excluded name = false) :
    table.Right servername ↔ name ∈ table.certs ∨ ∀ pattern ∈ table.certs,
      wildcardCovers name pattern = true →
        table.certs.lookup pattern = (wildcardOf name).bind fun own => table.certs.lookup own := by
  obtain ⟨hexc, hcv⟩ := coveredBy_eq_false_iff.mp h
  have hspl : certificateName servername = name := by rw [certificateName_eq, hn]
  unfold Right lookup
  rw [hspl]
  simp only [h, Bool.false_eq_true, if_false]
  by_cases hcts : name ∈ table.certs
  · have hkn : table.knows name = true := by
      simp [knows, AList.lookup_isSome.mpr hcts]
    obtain ⟨entry, he⟩ := isSome_iff_exists.mp (AList.lookup_isSome.mpr hcts)
    rw [selected_of_known hn hkn, he]
    simp [hexc, hcts]
  · have hselected : table.selected servername =
        (wildcardOf name).bind fun own => table.certs.lookup own := by
      rw [selected_of_unknown hn hcts hexc]
      cases how : wildcardOf name with
      | none => rfl
      | some own =>
        have hnt : own ∉ table.excluded := fun hmem => by
          have := hcv own hmem
          rw [wildcardCovers_of_mem how] at this
          exact absurd this (by decide)
        simp [hnt]
    rw [lookup_eq_none_iff_notMem.mpr hcts, hselected]
    simp only [hcts, false_or]
    rw [forall_perm_findSome?_iff]
    constructor
    · rintro ⟨hhit, -⟩ pattern hpat hcov
      obtain ⟨entry, he⟩ := isSome_iff_exists.mp (AList.lookup_isSome.mpr hpat)
      rw [he]
      exact (hhit ⟨pattern, entry⟩ (AList.mem_lookup_iff.mp he) entry (if_pos hcov)).symm
    · intro ha
      refine ⟨fun i hit entry he => ?_, fun hnone => ?_⟩
      · by_cases hcov : wildcardCovers name i.1 = true
        · rw [if_pos hcov] at he
          have hlk : table.certs.lookup i.1 = some i.2 := AList.mem_lookup_iff.mpr hit
          rw [← ha i.1 (AList.lookup_isSome.mp (by simp [hlk])) hcov, hlk]
          exact he
        · rw [if_neg hcov] at he
          simp at he
      · rw [bind_eq_none_iff]
        intro own how
        cases hlk : table.certs.lookup own with
        | none => rfl
        | some entry =>
          have := hnone ⟨own, entry⟩ (AList.mem_lookup_iff.mp hlk)
          rw [if_pos (wildcardCovers_of_mem how)] at this
          exact absurd this (by simp)

/-- The certificate that is found is that of the most specific name exactly for the names that the
table settles. -/
theorem lookup_iff (table : CertTable E) (servername : Bytes) :
    table.Right servername ↔ table.Settled (canonicalHost servername) := by
  obtain ⟨name, hn⟩ : ∃ name, canonicalHost servername = name := ⟨_, rfl⟩
  rw [hn]
  unfold Settled
  cases hcov : coveredBy table.excluded name with
  | false =>
    obtain ⟨hexc, hcv⟩ := coveredBy_eq_false_iff.mp hcov
    have how : ¬ ∃ pattern ∈ wildcardOf name, pattern ∈ table.excluded := by
      rintro ⟨pattern, hpat, hmem⟩
      exact absurd (wildcardCovers_of_mem hpat) (by simp [hcv pattern hmem])
    have hnone : ¬ ∃ pattern ∈ table.excluded, wildcardCovers name pattern = true := by
      rintro ⟨pattern, hmem, hcv'⟩
      simp [hcv pattern hmem] at hcv'
    rw [right_iff_of_uncovered hn hcov]
    simp only [hexc, how, hnone, false_or, and_false, false_and]
    exact (and_iff_right hcv).symm
  | true =>
    have hrt : table.Right servername ↔ table.selected servername = none := by
      unfold Right lookup
      simp only [certificateName_eq, hn, hcov, if_true]
      exact ⟨fun h => (h _ (.refl _)).symm, fun h _ _ => h.symm⟩
    rw [hrt]
    by_cases hexc : name ∈ table.excluded
    · rw [selected_of_known hn (by simp [knows, hexc])]
      simp [hexc]
    · have hs : ∃ pattern ∈ table.excluded, wildcardCovers name pattern = true := by
        by_contra hnone
        have : coveredBy table.excluded name = false :=
          coveredBy_eq_false_iff.mpr ⟨hexc, fun pattern hpat =>
            Bool.eq_false_iff.mpr fun hcv => hnone ⟨pattern, hpat, hcv⟩⟩
        rw [this] at hcov
        exact absurd hcov (by decide)
      have hnotAll : ¬ ∀ pattern ∈ table.excluded, wildcardCovers name pattern = false := by
        obtain ⟨pattern, hpat, hcv⟩ := hs
        intro ha
        simp [ha pattern hpat] at hcv
      by_cases hcts : name ∈ table.certs
      · have hkn : table.knows name = true := by
          simp [knows, AList.lookup_isSome.mpr hcts]
        rw [selected_of_known hn hkn]
        simp [hexc, hcts, hnotAll, lookup_eq_none_iff_notMem]
      · rw [selected_of_unknown hn hcts hexc]
        cases wildcardOf name with
        | none => simp [hexc, hcts, hs]
        | some own =>
          by_cases how : own ∈ table.excluded
          · simp [hexc, hcts, how]
          · simp [hexc, hcts, how, hs, hnotAll, lookup_eq_none_iff_notMem]

end CertTable

namespace Deeper

def table : CertTable Nat := CertTable.empty.upsert (ascii "*.example.com") 1

/-- It is offered for a name two labels below. -/
theorem not_right : ¬ table.Right (ascii "a.b.example.com") := by
  intro h
  have hfd := h table.certs.entries (.refl _)
  revert hfd
  decide

end Deeper

end Pingclair
