import Pingclair.Lib.AsciiCase
import Pingclair.Path.Percent

/-!
# Query strings in a log

The values of parameters that look like credentials are replaced before a target or a `Referer` is
logged. Names are looked at as they are written, escapes and all.
-/

namespace Pingclair.QueryRedaction

open ByteText AsciiCase Percent List

abbrev ampersand : UInt8 := 0x26
abbrev equals : UInt8 := 0x3D
abbrev question : UInt8 := 0x3F

def sensitiveQueryKeys : List Bytes :=
  [ascii "token", ascii "key", ascii "secret", ascii "password", ascii "passwd", ascii "pwd",
    ascii "credential", ascii "auth", ascii "signature", ascii "sig", ascii "session",
    ascii "code"]

def redacted : Bytes := ascii "REDACTED"

def isSensitiveQueryKey (key : Bytes) : Bool :=
  sensitiveQueryKeys.any fun needle => fold needle <:+: fold key

def redactPair (pair : Bytes) : Bytes :=
  match splitOnce equals pair with
  | some (key, _) => if isSensitiveQueryKey key then key ++ equals :: redacted else pair
  | none => pair

def redactQuery (query : Bytes) : Bytes :=
  [ampersand].intercalate ((query.splitOn ampersand).map redactPair)

def redactTarget (target : Bytes) : Bytes :=
  match splitOnce question target with
  | some (path, query) =>
    if (query.splitOn ampersand).any fun pair =>
        (splitOnce equals pair).any fun p => isSensitiveQueryKey p.1 then
      path ++ question :: redactQuery query
    else target
  | none => target

def redactReferer : Bytes → Bytes := redactTarget

/-- The path and the pairs of a target. Without a query there is no pair, not even an empty one. -/
def parts (target : Bytes) : Bytes × List Bytes :=
  match splitOnce question target with
  | some (path, query) => (path, query.splitOn ampersand)
  | none => (target, [])

def IsCredential (key : Bytes) : Prop := isSensitiveQueryKey (percentEscape.decode key)

/-- Two pairs that differ in the value of a credential, if at all. -/
def AlikePair (pair other : Bytes) : Prop :=
  pair = other ∨ ∃ key v w, pair = key ++ equals :: v ∧ other = key ++ equals :: w ∧
    equals ∉ key ∧ IsCredential key

def Alike (target other : Bytes) : Prop :=
  (parts target).1 = (parts other).1 ∧ Forall₂ AlikePair (parts target).2 (parts other).2

/-- What is logged of a target does not depend on credentials, and nothing else is changed. -/
def Hides (redact : Bytes → Bytes) (target : Bytes) : Prop :=
  (∀ other, Alike target other → redact other = redact target) ∧ Alike target (redact target)

/-- The credentials of a target are those that are named as they are written; another parameter that
looks like one has a redacted value already. -/
def PlainlyNamed (target : Bytes) : Prop :=
  ∀ key v, key ++ equals :: v ∈ (parts target).2 → equals ∉ key →
    (IsCredential key → isSensitiveQueryKey key = true) ∧
      (isSensitiveQueryKey key = true → IsCredential key ∨ v = redacted)

variable {target path key v : Bytes} {pairs : List Bytes}

theorem parts_join (hp : question ∉ path) (ha : ∀ pair ∈ pairs, ampersand ∉ pair)
    (hne : pairs ≠ []) :
    parts (path ++ question :: [ampersand].intercalate pairs) = (path, pairs) := by
  rw [parts, splitOnce_append hp]
  exact congrArg (Prod.mk path) (splitOn_intercalate ampersand ha hne)

theorem parts_cases (target : Bytes) : parts target = (target, []) ∨
    ∃ path pairs, parts target = (path, pairs) ∧ question ∉ path ∧ pairs ≠ [] ∧
      (∀ pair ∈ pairs, ampersand ∉ pair) ∧
      target = path ++ question :: [ampersand].intercalate pairs := by
  rw [parts]
  split
  · next path q hs =>
    obtain ⟨rfl, hp⟩ := splitOnce_eq_some hs
    refine .inr ⟨path, _, rfl, hp, splitOn_ne_nil _ _, fun _ => not_mem_of_mem_splitOn, ?_⟩
    rw [intercalate_splitOn]
  · exact .inl rfl

theorem eq_of_parts {other : Bytes} (h : parts target = parts other) : target = other := by
  obtain ht | ⟨p, ps, ht, -, hne, -, rfl⟩ := parts_cases target
  all_goals obtain ho | ⟨p', ps', ho, -, hne', -, rfl⟩ := parts_cases other
  all_goals
    rw [ht, ho, Prod.mk.injEq] at h
    obtain ⟨h1, h2⟩ := h
    subst_vars
  all_goals first | rfl | exact absurd rfl ‹_›

theorem redactPair_append (hk : equals ∉ key) : redactPair (key ++ equals :: v) =
    if isSensitiveQueryKey key then key ++ equals :: redacted else key ++ equals :: v := by
  rw [redactPair, splitOnce_append hk]

variable {pair : Bytes}

theorem ampersand_redactPair (h : ampersand ∉ pair) : ampersand ∉ redactPair pair := by
  rw [redactPair]
  split
  · next key _ hs =>
    obtain ⟨rfl, -⟩ := splitOnce_eq_some hs
    split_ifs
    · have hr : ampersand ∉ equals :: redacted := by decide
      simp_all
    · exact h
  · exact h

theorem redactPair_eq_self
    (h : ¬ (splitOnce equals pair).any (fun p => isSensitiveQueryKey p.1) = true) :
    redactPair pair = pair := by
  rw [redactPair]
  split
  · next key _ hs => exact if_neg (by simpa [hs] using h)
  · rfl

theorem parts_redactTarget (target : Bytes) :
    parts (redactTarget target) = ((parts target).1, (parts target).2.map redactPair) := by
  rw [redactTarget, parts.eq_def target]
  split
  · next pt query hs =>
    obtain ⟨rfl, hp⟩ := splitOnce_eq_some hs
    have hj : parts (pt ++ question :: redactQuery query) =
        (pt, (query.splitOn ampersand).map redactPair) := by
      refine parts_join hp (fun pair hm => ?_) (by simp [splitOn_ne_nil])
      obtain ⟨p, hq, rfl⟩ := mem_map.mp hm
      exact ampersand_redactPair (not_mem_of_mem_splitOn hq)
    split
    · exact hj
    · next ha =>
      have hq : redactQuery query = query := by
        have hm : (query.splitOn ampersand).map redactPair = query.splitOn ampersand := by
          refine (map_congr_left fun pair hm => redactPair_eq_self fun hs => ha ?_).trans (map_id _)
          exact any_eq_true.mpr ⟨pair, hm, hs⟩
        rw [redactQuery, hm, intercalate_splitOn]
      rwa [hq] at hj
  · next hs => rw [parts, hs]; rfl

theorem alike_redactTarget (h : PlainlyNamed target) : Alike target (redactTarget target) := by
  rw [Alike, parts_redactTarget]
  refine ⟨rfl, forall₂_map_right_iff.mpr (forall₂_same.mpr fun pair hm => ?_)⟩
  cases hs : splitOnce equals pair with
  | none => exact .inl (redactPair_eq_self (by simp [hs])).symm
  | some p =>
    obtain ⟨rfl, hk⟩ := splitOnce_eq_some hs
    rw [redactPair_append hk]
    split_ifs with hsens
    · obtain hc | hv := (h _ _ hm hk).2 hsens
      · exact .inr ⟨_, _, _, rfl, rfl, hk, hc⟩
      · exact .inl (by rw [hv])
    · exact .inl rfl

theorem redactPair_congr {other : Bytes} (h : PlainlyNamed target) (hm : pair ∈ (parts target).2)
    (ha : AlikePair pair other) : redactPair other = redactPair pair := by
  obtain rfl | ⟨key, v, w, rfl, rfl, hk, hc⟩ := ha
  · rfl
  · have hs := (h key v hm hk).1 hc
    rw [redactPair_append hk, redactPair_append hk, if_pos hs, if_pos hs]

theorem map_redactPair_congr {ps qs : List Bytes} (hf : Forall₂ AlikePair ps qs)
    (h : ∀ p ∈ ps, ∀ q, AlikePair p q → redactPair q = redactPair p) :
    qs.map redactPair = ps.map redactPair := by
  induction hf with
  | nil => rfl
  | cons ha _ ih =>
    rw [map_cons, map_cons, h _ mem_cons_self _ ha, ih (forall_mem_cons.mp h).2]

/-- A credential can have another value. -/
theorem exists_alike {l r : List Bytes} (ht : (parts target).2 = l ++ (key ++ equals :: v) :: r)
    (hk : equals ∉ key) (hc : IsCredential key) : ∃ other, Alike target other ∧
      (parts other).2 = l ++ (key ++ equals :: (v ++ [0x61])) :: r := by
  obtain hn | ⟨p, ps, hp, hq, -, ha, -⟩ := parts_cases target
  · simp [hn] at ht
  rw [hp] at ht
  subst ht
  have hv : ∀ pair ∈ l ++ (key ++ equals :: (v ++ [0x61])) :: r, ampersand ∉ pair := by
    have hm := ha (key ++ equals :: v) (by simp)
    simp only [mem_append, mem_cons] at ha hm ⊢
    rintro pair (h | rfl | h)
    · exact ha pair (.inl h)
    · simpa [show ampersand ≠ 0x61 by decide] using hm
    · exact ha pair (.inr (.inr h))
  have hj := parts_join hq hv (by simp)
  refine ⟨_, ?_, congrArg Prod.snd hj⟩
  rw [Alike, hp, hj]
  refine ⟨rfl, rel_append (forall₂_same.mpr fun _ _ => .inl rfl) (.cons ?_ ?_)⟩
  · exact .inr ⟨key, v, _, rfl, rfl, hk, hc⟩
  · exact forall₂_same.mpr fun _ _ => .inl rfl

theorem hides_redactTarget_iff : Hides redactTarget target ↔ PlainlyNamed target := by
  constructor
  · rintro ⟨hsm, -, hkp⟩ key v hm hk
    rw [parts_redactTarget, forall₂_map_right_iff, forall₂_same] at hkp
    have hx := hkp _ hm
    rw [redactPair_append hk] at hx
    refine ⟨fun hc => ?_, fun hs => ?_⟩
    · by_contra hs
      obtain ⟨l, r, hl⟩ := append_of_mem hm
      obtain ⟨o, ha, ho⟩ := exists_alike hl hk hc
      have heq := congrArg parts (hsm o ha)
      rw [parts_redactTarget, parts_redactTarget, ho, hl, Prod.mk.injEq] at heq
      simp [redactPair_append hk, hs] at heq
    · rw [if_pos hs] at hx
      obtain hx | ⟨k, w, u, hx, -, hkw, hc⟩ := hx
      · right
        simpa using hx
      · left
        have hu := congrArg (splitOnce equals) hx
        rw [splitOnce_append hk, splitOnce_append hkw] at hu
        simp_all
  · intro h
    refine ⟨fun o ha => eq_of_parts ?_, alike_redactTarget h⟩
    rw [parts_redactTarget, parts_redactTarget, ha.1,
      map_redactPair_congr ha.2 fun p hp q => redactPair_congr h hp]

/-- Credentials are hidden, and nothing else, exactly in targets whose credentials are named as they
are written. -/
theorem hides_iff (target : Bytes) :
    (Hides redactTarget target ∧ Hides redactReferer target) ↔ PlainlyNamed target := by
  rw [redactReferer, and_self, hides_redactTarget_iff]

/-- An escape hides a credential's name, and makes another name look like one. -/
theorem redactTarget_escaped :
    redactTarget (ascii "/?t%6Fken=a") = ascii "/?t%6Fken=a" ∧
      percentEscape.decode (ascii "t%6Fken") = ascii "token" ∧
      redactTarget (ascii "/?%2auth=a") = ascii "/?%2auth=REDACTED" ∧
      percentEscape.decode (ascii "%2auth") = ascii "*uth" := by
  decide +kernel

end Pingclair.QueryRedaction
