import Pingclair.Caddyfile.Matchers

/-!
# What matcher blocks mean

The lines of a block are alternatives when they are of one kind and conditions otherwise. The merge
puts header fields apart that are spelled differently, and drops path and method lines without
arguments: a block of nothing else is a panic. A negated block puts all its lines together as
conditions.
-/

namespace Pingclair.Caddyfile

open ByteText AsciiCase List AstMatcher Fallible KeyedFold Check

inductive Kind where
  | path
  | method
  | host
  | remoteIp
  | clientIp
  | header (field : Bytes)
  | query (key : Bytes)
  deriving DecidableEq

def Kind.ignoringCase : Kind → Kind
  | .header field => .header (fold field)
  | kind => kind

def headerKind : List Bytes → Option Kind
  | raw :: _ => if (headerField raw).2 then none else some (.header raw)
  | [] => none

def queryKind : List Bytes → Option Kind
  | spec :: _ => (splitOnce equalsSign spec).map fun pair => .query pair.1
  | [] => none

def Directive.kind (d : Directive) : Option Kind :=
  if d.name = ascii "path" then some .path
  else if d.name = ascii "method" then some .method
  else if d.name = ascii "host" then some .host
  else if d.name = ascii "remote_ip" then some .remoteIp
  else if d.name = ascii "client_ip" then some .clientIp
  else if d.name = ascii "header" then headerKind d.args
  else if d.name = ascii "query" then queryKind d.args
  else none

def Directive.Bare (d : Directive) : Prop :=
  (d.name = ascii "path" ∨ d.name = ascii "method") ∧ d.args = []

instance : DecidablePred Directive.Bare := fun d =>
  inferInstanceAs (Decidable ((d.name = ascii "path" ∨ d.name = ascii "method") ∧ d.args = []))

def AstMatcher.kind : AstMatcher → Option Kind
  | .path _ => some .path
  | .method _ => some .method
  | .host _ => some .host
  | .remoteIp _ => some .remoteIp
  | .clientIp _ => some .clientIp
  | .header m => some (.header m.name)
  | .query m => some (.query m.name)
  | _ => none

/-- A matcher that adds nothing to its group. -/
def AstMatcher.Idle : AstMatcher → Prop
  | .path patterns => patterns = []
  | .method methods => methods = []
  | .host hosts => hosts = []
  | .remoteIp ranges => ranges = []
  | .clientIp ranges => ranges = []
  | _ => False

/-! ### What a line reads as -/

theorem kind_headerMatcher (raw : Bytes) (cond : HeaderCondition) (args : List Bytes) :
    (headerMatcher raw cond).kind = headerKind (raw :: args) := by
  rw [headerMatcher, headerKind]
  unfold headerField
  cases raw.dropPrefix? [bang] with
  | some name => rfl
  | none => rfl

structure AstMatcher.Condition (m : AstMatcher) : Prop where
  kind : m.kind = none
  not_idle : ¬ m.Idle
  noNames : m.NoNames

inductive Reads (d : Directive) : AstMatcher → Prop
  | path : d.name = ascii "path" → Reads d (.path d.args)
  | method {methods : List HttpMethod} : d.name = ascii "method" →
      methods.length = d.args.length → Reads d (.method methods)
  | host : d.name = ascii "host" → d.args ≠ [] → Reads d (.host d.args)
  | remoteIp : d.name = ascii "remote_ip" → d.args ≠ [] → Reads d (.remoteIp (expandRanges d.args))
  | clientIp : d.name = ascii "client_ip" → d.args ≠ [] → Reads d (.clientIp (expandRanges d.args))
  | header {raw : Bytes} {condition : HeaderCondition} {rest : List Bytes} :
      d.name = ascii "header" → d.args = raw :: rest → Reads d (headerMatcher raw condition)
  | query {spec : Bytes} {pair : Bytes × Bytes} {condition : HeaderCondition} {rest : List Bytes} :
      d.name = ascii "query" → d.args = spec :: rest → splitOnce equalsSign spec = some pair →
      Reads d (.query ⟨pair.1, condition⟩)
  | other {m : AstMatcher} : d.kind = none → m.Condition → Reads d m

def kindNames : List Bytes :=
  [ascii "path", ascii "method", ascii "host", ascii "remote_ip", ascii "client_ip", ascii "header",
    ascii "query"]

variable {d : Directive}

theorem kind_eq_none (h : d.name ∉ kindNames) : d.kind = none := by
  simp only [kindNames, mem_cons, not_mem_nil, or_false, not_or] at h
  obtain ⟨hp, hmth, hh, hremote, hcli, hhd, hq⟩ := h
  rw [Directive.kind, if_neg hp, if_neg hmth, if_neg hh, if_neg hremote, if_neg hcli,
    if_neg hhd, if_neg hq]

variable {m : AstMatcher}

theorem Reads.noNames (h : Reads d m) : m.NoNames := by
  cases h with
  | other _ hm => exact hm.noNames
  | header _ _ =>
    rw [headerMatcher]
    split <;> exact trivial
  | _ => exact trivial

variable {matchers : List AstMatcher}

theorem noNames_foldl {join : AstMatcher → AstMatcher → AstMatcher}
    (hjoin : ∀ {m m'}, m.NoNames → m'.NoNames → (join m m').NoNames) (hm : m.NoNames)
    (h : ∀ m ∈ matchers, m.NoNames) : (matchers.foldl join m).NoNames := by
  induction matchers generalizing m with
  | nil => exact hm
  | cons m' matchers ih =>
    exact ih (hjoin hm (h m' mem_cons_self)) (forall_mem_cons.mp h).2

theorem noNames_conjunction
    (hm : conjunction matchers = some m) (h : ∀ m ∈ matchers, m.NoNames) : m.NoNames := by
  cases matchers with
  | nil => cases hm
  | cons m' matchers =>
    cases hm
    exact noNames_foldl And.intro (h m' mem_cons_self) (forall_mem_cons.mp h).2

section Reading

variable {tools : Tools} {d : Directive} {m : AstMatcher} {levels : Nat}

variable {parse : Directive → Except AdapterError AstMatcher}

/-- What a negated block reads as. -/
theorem parseNot_block
    {lines : List Directive} (hblk : d.block = some lines) (h : parseNot parse d = .ok m) :
    ∃ matchers inner, lines.mapM parse = .ok matchers ∧ conjunction matchers = some inner ∧
      m = .not inner := by
  rw [parseNot, hblk] at h
  obtain ⟨matchers, hmts, h⟩ := bind_eq_ok.mp h
  cases hin : conjunction matchers with
  | none =>
    rw [hin] at h
    cases h
  | some inner =>
    rw [hin] at h
    obtain ⟨_, _, h⟩ := bind_eq_ok.mp h
    cases h
    exact ⟨matchers, inner, hmts, hin, rfl⟩

theorem parseNot_line (hblk : d.block = none) (h : parseNot parse d = .ok m) :
    ∃ d' inner, parse d' = .ok inner ∧ m = .not inner := by
  rw [parseNot, hblk] at h
  cases har : d.args with
  | nil =>
    rw [har] at h
    cases h
  | cons name a =>
    rw [har] at h
    obtain ⟨inner, hin, rfl⟩ := map_eq_ok.mp h
    exact ⟨_, inner, hin, rfl⟩

theorem reads_of_query (hn : d.name = ascii "query") (h : parseQuery d = .ok m) : Reads d m := by
  rw [parseQuery] at h
  split at h
  · cases h
  · next s har =>
    split at h
    · cases h
    · split at h
      · cases h
      · next name value hsp =>
        cases h
        exact .query hn har hsp
  · cases h

theorem reads_of_header (hn : d.name = ascii "header") (h : parseHeader d = .ok m) : Reads d m := by
  rw [parseHeader] at h
  split at h
  · next raw har =>
    cases h
    exact .header hn har
  · next raw value har =>
    cases h
    exact .header hn har
  · cases h
  · cases h

theorem noNames_of_not (hps : ∀ d m, parse d = .ok m → m.NoNames) (h : parseNot parse d = .ok m) :
    m.Condition := by
  cases hblk : d.block with
  | some ls =>
    obtain ⟨ms, i, hmts, hin, rfl⟩ := parseNot_block hblk h
    have hns : i.NoNames := by
      apply noNames_conjunction hin
      intro m hm
      obtain ⟨line, -, hli⟩ := exists_of_mem_mapM hmts hm
      exact hps line m hli
    exact ⟨rfl, id, hns⟩
  | none =>
    obtain ⟨d', i, hin, rfl⟩ := parseNot_line hblk h
    exact ⟨rfl, id, hps d' i hin⟩

theorem parseHost_eq_ok (h : parseHost d = .ok m) : m = .host d.args ∧ d.args ≠ [] := by
  rw [parseHost] at h
  split_ifs at h with har
  cases h
  exact ⟨rfl, har⟩

theorem parseIp_eq_ok {of : List Bytes → AstMatcher} (h : parseIp of d = .ok m) :
    m = of (expandRanges d.args) ∧ d.args ≠ [] := by
  rw [parseIp] at h
  split_ifs at h with har
  cases h
  exact ⟨rfl, har⟩

theorem parseFile_eq_ok (h : parseFile d = .ok m) : m.Condition := by
  obtain ⟨_, _, h⟩ := bind_eq_ok.mp h
  cases h
  exact ⟨rfl, id, trivial⟩

theorem parseProtocol_eq_ok (h : parseProtocol d = .ok m) : m.Condition := by
  rw [parseProtocol] at h
  split at h
  · cases h
  · split at h
    · cases h
    · cases h
      exact ⟨rfl, id, trivial⟩

theorem parseHeaderRegexp_eq_ok (h : parseHeaderRegexp tools d = .ok m) : m.Condition := by
  rw [parseHeaderRegexp] at h
  split at h
  · obtain ⟨_, _, h⟩ := bind_eq_ok.mp h
    cases h
    exact ⟨rfl, id, trivial⟩
  · cases h
    exact ⟨rfl, id, trivial⟩
  · cases h

theorem parsePathRegexp_eq_ok (h : parsePathRegexp tools d = .ok m) : m.Condition := by
  rw [parsePathRegexp] at h
  split at h
  · cases h
  · split at h
    · obtain ⟨_, _, h⟩ := bind_eq_ok.mp h
      cases h
      exact ⟨rfl, id, trivial⟩
    · obtain ⟨_, _, h⟩ := bind_eq_ok.mp h
      cases h
      exact ⟨rfl, id, trivial⟩
    · cases h

theorem parseVars_eq_ok (h : parseVars d = .ok m) : m.Condition := by
  rw [parseVars] at h
  split at h
  · cases h
  · cases h
  · cases h
    exact ⟨rfl, id, trivial⟩

theorem reads_of_parse (h : parseSingleMatcherAt tools levels d = .ok m) : Reads d m := by
  induction levels generalizing d m with
  | zero => cases h
  | succ levels ih =>
    have hcd {name : Bytes} (hn : d.name = name) (hnt : name ∉ kindNames)
        (hm : m.Condition) : Reads d m :=
      .other (kind_eq_none (hn ▸ hnt)) hm
    simp only [parseSingleMatcherAt, ite_eq_iff] at h
    obtain ⟨hn, h⟩ | ⟨-, ⟨hn, h⟩ | ⟨-, ⟨hn, h⟩ | ⟨-, ⟨hn, h⟩ | ⟨-, ⟨hn, h⟩ | ⟨-, ⟨hn, h⟩ | ⟨-, ⟨hn,
      h⟩ | ⟨-, ⟨hn, h⟩ | ⟨-, ⟨hn, h⟩ | ⟨-, ⟨hn, h⟩ | ⟨-, ⟨hn, h⟩ | ⟨-, ⟨hn, h⟩ | ⟨-, ⟨hn, h⟩ |
      ⟨-, ⟨-, h⟩ | ⟨-, h⟩⟩⟩⟩⟩⟩⟩⟩⟩⟩⟩⟩⟩⟩ := h
    · cases h
      exact .path hn
    · exact hcd hn (by decide) (parseFile_eq_ok h)
    · exact hcd hn (by decide) (noNames_of_not (fun d m h => (ih h).noNames) h)
    · obtain ⟨methods, hmethods, rfl⟩ := map_eq_ok.mp h
      exact .method hn (mapM_eq_ok.mp hmethods).length_eq.symm
    · obtain ⟨rfl, har⟩ := parseHost_eq_ok h
      exact .host hn har
    · exact reads_of_query hn h
    · exact hcd hn (by decide) (parseProtocol_eq_ok h)
    · obtain ⟨rfl, har⟩ := parseIp_eq_ok h
      exact .remoteIp hn har
    · obtain ⟨rfl, har⟩ := parseIp_eq_ok h
      exact .clientIp hn har
    · exact reads_of_header hn h
    · exact hcd hn (by decide) (parseHeaderRegexp_eq_ok h)
    · exact hcd hn (by decide) (parsePathRegexp_eq_ok h)
    · exact hcd hn (by decide) (parseVars_eq_ok h)
    · cases h
    · cases h

end Reading

theorem Reads.kind_eq (h : Reads d m) : m.kind = d.kind := by
  have hk : ∀ {name : Bytes}, d.name = name → d.kind = Directive.kind { d with name } := by
    rintro name rfl
    rfl
  cases h with
  | path hn => exact (hk hn).symm
  | method hn _ => exact (hk hn).symm
  | host hn _ => exact (hk hn).symm
  | remoteIp hn _ => exact (hk hn).symm
  | clientIp hn _ => exact (hk hn).symm
  | @header raw c rest hn har =>
    rw [kind_headerMatcher raw c rest, ← har]
    exact (hk hn).symm
  | @query s pair c rest hn har hsp =>
    have hq : d.kind = queryKind d.args := hk hn
    rw [hq, har, queryKind, hsp]
    rfl
  | other hk hm => exact hm.kind.trans hk.symm

theorem Directive.Bare.kind (h : d.Bare) : d.kind = some .path ∨ d.kind = some .method := by
  obtain ⟨hp | hmth, -⟩ := h
  · left
    rw [Directive.kind, if_pos hp]
  · right
    have hp : d.name ≠ ascii "path" := by
      rw [hmth]
      decide
    rw [Directive.kind, if_neg hp, if_pos hmth]

theorem expandRanges_ne_nil {args : List Bytes} (h : args ≠ []) : expandRanges args ≠ [] := by
  cases args with
  | nil => exact absurd rfl h
  | cons arg args =>
    rw [expandRanges, flatMap_cons]
    split <;> simp [privateRanges]

theorem Reads.idle_iff (h : Reads d m) : m.Idle ↔ d.Bare := by
  have hk := h.kind_eq
  have ho (hm : m.kind ≠ some .path ∧ m.kind ≠ some .method) : ¬ d.Bare := by
    intro hba
    rw [hk] at hm
    exact hba.kind.elim hm.1 hm.2
  cases h with
  | path hn => exact ⟨fun h => ⟨.inl hn, h⟩, fun h => h.2⟩
  | method hn hlen =>
    constructor
    · intro h
      have hni : _ = [] := h
      rw [hni] at hlen
      exact ⟨.inr hn, length_eq_zero_iff.mp hlen.symm⟩
    · intro h
      rw [h.2] at hlen
      exact length_eq_zero_iff.mp hlen
  | host hn har => exact iff_of_false har (ho (by simp [kind]))
  | remoteIp hn har =>
    exact iff_of_false (expandRanges_ne_nil har) (ho (by simp [kind]))
  | clientIp hn har =>
    exact iff_of_false (expandRanges_ne_nil har) (ho (by simp [kind]))
  | @header raw c rest hn har =>
    refine iff_of_false ?_ (ho ?_)
    · rw [headerMatcher]
      split <;> exact id
    · rw [headerMatcher]
      split <;> simp [kind]
  | query hn har hsp => exact iff_of_false id (ho (by simp [kind]))
  | other _ hm => exact iff_of_false hm.not_idle (ho (by simp [hm.kind]))

namespace AstMatcher

def header? : AstMatcher → Option HeaderMatcher
  | .header m => some m
  | _ => none

def query? : AstMatcher → Option QueryMatcher
  | .query m => some m
  | _ => none

def patterns : AstMatcher → List Bytes
  | .path patterns => patterns
  | _ => []

def methods : AstMatcher → List HttpMethod
  | .method methods => methods
  | _ => []

def hosts : AstMatcher → List Bytes
  | .host hosts => hosts
  | _ => []

def remoteRanges : AstMatcher → List Bytes
  | .remoteIp ranges => ranges
  | _ => []

def clientRanges : AstMatcher → List Bytes
  | .clientIp ranges => ranges
  | _ => []

end AstMatcher

theorem group_concat {α κ : Type} [DecidableEq κ] (key : α → κ) (its : List α) (item : α) :
    group key (its ++ [item]) = push key (group key its) item := by
  simp [group]

theorem groups_eq (matchers : List AstMatcher) :
    matchers.foldl Groups.add .start =
      { headers := group HeaderMatcher.name (matchers.filterMap header?)
        queries := group QueryMatcher.name (matchers.filterMap query?)
        paths := matchers.flatMap patterns
        methods := matchers.flatMap methods
        hosts := matchers.flatMap hosts
        remoteIps := matchers.flatMap remoteRanges
        clientIps := matchers.flatMap clientRanges
        others := matchers.filter (·.kind.isNone) } := by
  induction matchers using List.reverseRecOn with
  | nil => rfl
  | append_singleton matchers m ih =>
    rw [foldl_append, ih]
    cases m <;>
      simp [Groups.add, header?, query?, patterns, methods, hosts, remoteRanges, clientRanges, kind,
        filterMap_cons, group_concat]

/-! ### What the groups accept -/

section Merge

variable {http : HttpLib} (lib : MatcherLib http) (tools : Tools)
  (request : MatcherRequest (RequestFacts http))

def AstMatcher.tests : AstMatcher → Option Bool
  | .path patterns => some
      ((patterns.map PathPattern.of).any (·.matches (Percent.decodeForMatching request.path.bytes)))
  | .header m => some (m.holds lib request)
  | .method methods => some (methods.any (·.holds request))
  | .query m => some (m.holds request.path.bytes)
  | .host hosts => some (hosts.any (eqIgnoreCase · request.facts.host))
  | .remoteIp ranges => some (request.facts.addresses.remoteIp.any (inRanges tools ranges))
  | .clientIp ranges => some (request.facts.addresses.clientIp.any (inRanges tools ranges))
  | _ => none

theorem check_of_tests {b : Bool} (h : m.tests lib tools request = some b) :
    m.check lib tools request = .test b := by
  cases m <;> cases h <;> rfl

theorem tests_eq_none_iff : m.tests lib tools request = none ↔ m.kind = none := by
  cases m <;> simp [tests, kind]

def Grants (matchers : List AstMatcher) (k : Kind) : Prop :=
  ∃ m ∈ matchers, m.kind = some k ∧ m.tests lib tools request = some true

def Served (matchers : List AstMatcher) (k : Kind) : Prop :=
  (∃ m ∈ matchers, ¬ m.Idle ∧ m.kind = some k) → Grants lib tools request matchers k

/-- The values of a kind's matchers make one matcher. -/
structure Gathered {α : Type} (k : Kind) (of : List α → AstMatcher)
    (values : AstMatcher → List α) (p : α → Bool) : Prop where
  tests : ∀ l, (of l).tests lib tools request = some (l.any p)
  eq_of : ∀ {m}, m.kind = some k → m = of (values m)
  nil_of : ∀ {m}, m.kind ≠ some k → values m = []
  idle : ∀ {l}, (of l).Idle ↔ l = []
  noNames : ∀ l, (of l).NoNames

/-- The matchers of a kind with keys are alternatives under each key. -/
structure Keyed {α : Type} (kind : Bytes → Kind) (key : α → Bytes) (of : α → AstMatcher)
    (item? : AstMatcher → Option α) (p : α → Bool) : Prop where
  tests : ∀ a, (of a).tests lib tools request = some (p a)
  item : ∀ {m a}, item? m = some a ↔ m = of a
  kind_iff : ∀ {m b}, m.kind = some (kind b) ↔ ∃ a, m = of a ∧ key a = b
  idle : ∀ a, ¬ (of a).Idle
  noNames : ∀ a, (of a).NoNames

variable {lib tools request}

section Gather

variable {α : Type} {k : Kind} {of : List α → AstMatcher} {values : AstMatcher → List α}
  {p : α → Bool} (g : Gathered lib tools request k of values p) (matchers : List AstMatcher)

include g

theorem Gathered.any_iff :
    (matchers.flatMap values).any p = true ↔ Grants lib tools request matchers k := by
  rw [any_flatMap, any_eq_true]
  constructor
  · rintro ⟨m, hm, hany⟩
    have hk : m.kind = some k := by
      by_contra hne
      rw [g.nil_of hne] at hany
      simp at hany
    refine ⟨m, hm, hk, ?_⟩
    rw [g.eq_of hk, g.tests, hany]
  · rintro ⟨m, hm, hk, htst⟩
    rw [g.eq_of hk, g.tests] at htst
    exact ⟨m, hm, Option.some.inj htst⟩

theorem Gathered.nil_iff :
    matchers.flatMap values = [] ↔ ∀ m ∈ matchers, m.kind = some k → m.Idle := by
  rw [flatMap_eq_nil_iff]
  refine forall₂_congr fun m _ => ?_
  constructor
  · intro hni hk
    rw [g.eq_of hk, g.idle, hni]
  · intro hidle
    by_cases hk : m.kind = some k
    · have := hidle hk
      rwa [g.eq_of hk, g.idle] at this
    · exact g.nil_of hk

/-- The part of a gathered kind. -/
theorem Gathered.part :
    (partOf of (matchers.flatMap values) = [] ↔ ∀ m ∈ matchers, m.kind = some k → m.Idle) ∧
      (∀ m ∈ partOf of (matchers.flatMap values), m.NoNames) ∧
      ∃ bs : List Bool, (partOf of (matchers.flatMap values)).map (·.check lib tools request) =
        bs.map .test ∧ (bs.all id = true ↔ Served lib tools request matchers k) := by
  rw [partOf, ← g.nil_iff]
  split
  · next hni =>
    refine ⟨by simp [hni], by simp, [], rfl, iff_of_true rfl ?_⟩
    rintro ⟨m, hm, hidle, hk⟩
    exact absurd ((g.nil_iff matchers).mp hni m hm hk) hidle
  · next hne =>
    refine ⟨by simp [hne], by simp [g.noNames], [(matchers.flatMap values).any p], ?_, ?_⟩
    · rw [map_singleton, map_singleton, check_of_tests lib tools request (g.tests _)]
    · have hs : ∃ m ∈ matchers, ¬ m.Idle ∧ m.kind = some k := by
        by_contra hnone
        push Not at hnone
        refine hne ((g.nil_iff matchers).mpr fun m hm hk => ?_)
        by_contra hidle
        exact hnone m hm hidle hk
      simp only [all_cons, all_nil, id, Bool.and_true, g.any_iff]
      exact ⟨fun h _ => h, fun h => h hs⟩

end Gather

section Key

variable {α : Type} {kind : Bytes → Kind} {key : α → Bytes} {of : α → AstMatcher}
  {item? : AstMatcher → Option α} {p : α → Bool} (g : Keyed lib tools request kind key of item? p)
  (matchers : List AstMatcher)

theorem check_foldl_or (matchers : List AstMatcher) (m : AstMatcher) :
    (matchers.foldl AstMatcher.or m).check lib tools request =
      (matchers.map (·.check lib tools request)).foldl .either (m.check lib tools request) := by
  induction matchers generalizing m with
  | nil => rfl
  | cons m' matchers ih => exact ih (.or m m')

include g

theorem Keyed.disjunction_row {row : List α} (h : row ≠ []) :
    ∃ m, disjunction (row.map of) = some m ∧ m.NoNames ∧
      m.check lib tools request = .test (row.any p) := by
  cases row with
  | nil => exact absurd rfl h
  | cons a row =>
    refine ⟨_, rfl, noNames_foldl And.intro (g.noNames a) (by simp [g.noNames]), ?_⟩
    have hrow : (row.map of).map (·.check lib tools request) = (row.map p).map .test := by
      simp [check_of_tests lib tools request (g.tests _)]
    rw [check_foldl_or, hrow, check_of_tests lib tools request (g.tests a), foldl_either_test]
    simp

theorem Keyed.mapM_rows {rows : List (List α)} (h : ∀ row ∈ rows, row ≠ []) :
    ∃ parts, rows.mapM (fun row => disjunction (row.map of)) = some parts ∧
      parts.length = rows.length ∧ (∀ m ∈ parts, m.NoNames) ∧
        parts.map (·.check lib tools request) = (rows.map (·.any p)).map .test := by
  induction rows with
  | nil => exact ⟨[], rfl, rfl, by simp, rfl⟩
  | cons row rows ih =>
    obtain ⟨parts, hpts, hlen, hns, hcks⟩ := ih (forall_mem_cons.mp h).2
    obtain ⟨m, hm, hn, hcheck⟩ := g.disjunction_row (h row mem_cons_self)
    refine ⟨m :: parts, ?_, by simp [hlen], by simpa using ⟨hn, hns⟩, by simp [hcks, hcheck]⟩
    rw [mapM_cons, hm, hpts]
    rfl

theorem Keyed.mem_items {a : α} : a ∈ matchers.filterMap item? ↔ of a ∈ matchers := by
  rw [mem_filterMap]
  constructor
  · rintro ⟨m, hm, hit⟩
    rwa [← g.item.mp hit]
  · intro hm
    exact ⟨of a, hm, g.item.mpr rfl⟩

theorem Keyed.rows_iff :
    (∀ row ∈ (group key (matchers.filterMap item?)).entries.map Sigma.snd,
        row.any p = true) ↔ ∀ b, Served lib tools request matchers (kind b) := by
  rw [forall_group]
  constructor
  · rintro h b ⟨m, hm, -, hki⟩
    obtain ⟨a, rfl, rfl⟩ := g.kind_iff.mp hki
    obtain ⟨a', ha', hp⟩ := any_eq_true.mp (h a ((g.mem_items matchers).mpr hm))
    obtain ⟨hmem, hk⟩ := mem_filter.mp ha'
    refine ⟨of a', (g.mem_items matchers).mp hmem, ?_, ?_⟩
    · exact g.kind_iff.mpr ⟨a', rfl, of_decide_eq_true hk⟩
    · rw [g.tests, hp]
  · intro h a ha
    obtain ⟨m, hm, hki, htst⟩ := h (key a)
      ⟨of a, (g.mem_items matchers).mp ha, g.idle a, g.kind_iff.mpr ⟨a, rfl, rfl⟩⟩
    obtain ⟨a', rfl, hk⟩ := g.kind_iff.mp hki
    rw [g.tests] at htst
    refine any_eq_true.mpr ⟨a', ?_, Option.some.inj htst⟩
    exact mem_filter.mpr ⟨(g.mem_items matchers).mpr hm, decide_eq_true hk⟩

/-- The parts of a kind with keys. -/
theorem Keyed.parts (order : HashOrder) :
    ∃ parts, (order.values ((group key (matchers.filterMap item?)).entries.map
        Sigma.snd)).mapM (fun row => disjunction (row.map of)) = some parts ∧
      (parts = [] ↔ ∀ m ∈ matchers, ∀ b, m.kind ≠ some (kind b)) ∧ (∀ m ∈ parts, m.NoNames) ∧
      ∃ bs : List Bool, parts.map (·.check lib tools request) = bs.map .test ∧
        (bs.all id = true ↔ ∀ b, Served lib tools request matchers (kind b)) := by
  have hperm := order.perm ((group key (matchers.filterMap item?)).entries.map Sigma.snd)
  have hne : ∀ row ∈ (group key (matchers.filterMap item?)).entries.map Sigma.snd, row ≠ [] := by
    refine forall_group.mpr fun a ha hni => ?_
    have hmem : a ∈ (matchers.filterMap item?).filter (key · = key a) := by simp [ha]
    rw [hni] at hmem
    exact not_mem_nil hmem
  obtain ⟨parts, hpts, hlen, hns, hcks⟩ := g.mapM_rows fun row hrow =>
    hne row (hperm.mem_iff.mp hrow)
  refine ⟨parts, hpts, ?_, hns, _, hcks, ?_⟩
  · have hrows : parts = [] ↔
        ∀ row ∈ (group key (matchers.filterMap item?)).entries.map Sigma.snd, False := by
      rw [← length_eq_zero_iff, hlen, length_eq_zero_iff, eq_nil_iff_forall_not_mem]
      exact forall_congr' fun row => by rw [hperm.mem_iff]
    rw [hrows, forall_group]
    constructor
    · intro h m hm b hk
      obtain ⟨a, rfl, -⟩ := g.kind_iff.mp hk
      exact h a ((g.mem_items matchers).mpr hm)
    · intro h a ha
      exact h (of a) ((g.mem_items matchers).mp ha) (key a) (g.kind_iff.mpr ⟨a, rfl, rfl⟩)
  · rw [← g.rows_iff, all_map, all_eq_true]
    exact forall_congr' fun row => by rw [hperm.mem_iff]; rfl

end Key

section Kinds

variable (lib tools request)

theorem gathered_path : Gathered lib tools request .path .path patterns fun pattern =>
    (PathPattern.of pattern).matches (Percent.decodeForMatching request.path.bytes) where
  tests l := by simp [tests, Function.comp_def]
  eq_of {m} h := by cases m <;> simp_all [kind, patterns]
  nil_of {m} h := by cases m <;> simp_all [kind, patterns]
  idle := Iff.rfl
  noNames _ := trivial

theorem gathered_method : Gathered lib tools request .method .method methods
    (·.holds request) where
  tests l := rfl
  eq_of {m} h := by cases m <;> simp_all [kind, methods]
  nil_of {m} h := by cases m <;> simp_all [kind, methods]
  idle := Iff.rfl
  noNames _ := trivial

theorem gathered_host : Gathered lib tools request .host .host hosts
    (eqIgnoreCase · request.facts.host) where
  tests l := rfl
  eq_of {m} h := by cases m <;> simp_all [kind, hosts]
  nil_of {m} h := by cases m <;> simp_all [kind, hosts]
  idle := Iff.rfl
  noNames _ := trivial

theorem any_inRanges (address : Option IpAddr) (rs : List Bytes) :
    address.any (inRanges tools rs) = rs.any fun entry =>
      address.any fun address => (parseIpRange tools entry).any (·.contains address) := by
  cases address with
  | none => simp
  | some address => rfl

theorem gathered_remoteIp : Gathered lib tools request .remoteIp .remoteIp remoteRanges
    fun entry => request.facts.addresses.remoteIp.any fun address =>
      (parseIpRange tools entry).any (·.contains address) where
  tests l := congrArg some (any_inRanges tools _ _)
  eq_of {m} h := by cases m <;> simp_all [kind, remoteRanges]
  nil_of {m} h := by cases m <;> simp_all [kind, remoteRanges]
  idle := Iff.rfl
  noNames _ := trivial

theorem gathered_clientIp : Gathered lib tools request .clientIp .clientIp clientRanges
    fun entry => request.facts.addresses.clientIp.any fun address =>
      (parseIpRange tools entry).any (·.contains address) where
  tests l := congrArg some (any_inRanges tools _ _)
  eq_of {m} h := by cases m <;> simp_all [kind, clientRanges]
  nil_of {m} h := by cases m <;> simp_all [kind, clientRanges]
  idle := Iff.rfl
  noNames _ := trivial

theorem keyed_header : Keyed lib tools request .header HeaderMatcher.name .header
    header? (·.holds lib request) where
  tests m := rfl
  item {m a} := by cases m <;> simp [header?]
  kind_iff {m b} := by cases m <;> simp [kind]
  idle a := id
  noNames _ := trivial

theorem keyed_query : Keyed lib tools request .query QueryMatcher.name .query query?
    (·.holds request.path.bytes) where
  tests m := rfl
  item {m a} := by cases m <;> simp [query?]
  kind_iff {m b} := by cases m <;> simp [kind]
  idle a := id
  noNames _ := trivial

end Kinds

theorem check_foldl_and (matchers : List AstMatcher) (m : AstMatcher) :
    (matchers.foldl AstMatcher.and m).check lib tools request =
      (matchers.map (·.check lib tools request)).foldl .both (m.check lib tools request) := by
  induction matchers generalizing m with
  | nil => rfl
  | cons m' matchers ih => exact ih (.and m m')

theorem check_conjunction (h : conjunction matchers = some m) :
    m.check lib tools request = .all (matchers.map (·.check lib tools request)) := by
  cases matchers with
  | nil => cases h
  | cons m' matchers =>
    cases h
    rw [check_foldl_and, foldl_both]
    rfl

theorem Kind.forall_iff {p : Kind → Prop} :
    (∀ k, p k) ↔ (∀ b, p (.header b)) ∧ (∀ b, p (.query b)) ∧ p .path ∧ p .method ∧ p .host ∧
      p .remoteIp ∧ p .clientIp := by
  refine ⟨fun h => ⟨fun b => h _, fun b => h _, h _, h _, h _, h _, h _⟩, fun h k => ?_⟩
  obtain ⟨hhd, hq, hp, hmth, hh, hremote, hcli⟩ := h
  cases k <;> first | assumption | exact hhd _ | exact hq _

/-- A matcher that adds nothing is of a kind whose values are gathered. -/
theorem forall_idle_iff :
    (∀ m ∈ matchers, m.Idle) ↔
      (∀ m ∈ matchers, ∀ b, m.kind ≠ some (.header b)) ∧
      (∀ m ∈ matchers, ∀ b, m.kind ≠ some (.query b)) ∧
      (∀ m ∈ matchers, m.kind = some .path → m.Idle) ∧
      (∀ m ∈ matchers, m.kind = some .method → m.Idle) ∧
      (∀ m ∈ matchers, m.kind = some .host → m.Idle) ∧
      (∀ m ∈ matchers, m.kind = some .remoteIp → m.Idle) ∧
      (∀ m ∈ matchers, m.kind = some .clientIp → m.Idle) ∧
      ∀ m ∈ matchers, m.kind ≠ none := by
  have hidle : ∀ {m : AstMatcher}, m.Idle →
      (∀ b, m.kind ≠ some (.header b)) ∧ (∀ b, m.kind ≠ some (.query b)) ∧ m.kind ≠ none := by
    intro m h
    cases m <;> first | exact h.elim | simp [kind]
  constructor
  · intro h
    exact ⟨fun m hm => (hidle (h m hm)).1, fun m hm => (hidle (h m hm)).2.1, fun m hm _ => h m hm,
      fun m hm _ => h m hm, fun m hm _ => h m hm, fun m hm _ => h m hm, fun m hm _ => h m hm,
      fun m hm => (hidle (h m hm)).2.2⟩
  · rintro ⟨hhd, hq, hp, hmth, hh, hremote, hcli, ho⟩ m hm
    obtain ⟨k, hk⟩ := Option.ne_none_iff_exists'.mp (ho m hm)
    revert k
    exact Kind.forall_iff.mpr ⟨fun b hk => absurd hk (hhd m hm b),
      fun b hk => absurd hk (hq m hm b), hp m hm, hmth m hm, hh m hm,
      hremote m hm, hcli m hm⟩

variable (lib tools request) in
/-- The parts of a block: a test for each kind, and the other matchers. -/
theorem parts_eq (order : HashOrder) (matchers : List AstMatcher) :
    ∃ parts, (matchers.foldl Groups.add .start).parts order = some parts ∧
      (parts = [] ↔ ∀ m ∈ matchers, m.Idle) ∧
      ((∀ m ∈ matchers, m.NoNames) → ∀ m ∈ parts, m.NoNames) ∧
      ∃ bs : List Bool, parts.map (·.check lib tools request) =
          bs.map .test ++ (matchers.filter (·.kind.isNone)).map (·.check lib tools request) ∧
        (bs.all id = true ↔ ∀ k, Served lib tools request matchers k) := by
  obtain ⟨hdrs, hheaders, hnoHeaders, hheaderNames, hs, hheaderChecks, hheaderAll⟩ :=
    (keyed_header lib tools request).parts matchers order
  obtain ⟨q, hqueries, hnoQueries, hqueryNames, qs, hqueryChecks, hqueryAll⟩ :=
    (keyed_query lib tools request).parts matchers order
  obtain ⟨hnoPaths, hpathNames, ps, hpathChecks, hpathAll⟩ :=
    (gathered_path lib tools request).part matchers
  obtain ⟨hnoMethods, hmethodNames, ms, hmethodChecks, hmethodAll⟩ :=
    (gathered_method lib tools request).part matchers
  obtain ⟨hnoHosts, hhostNames, os, hhostChecks, hhostAll⟩ :=
    (gathered_host lib tools request).part matchers
  obtain ⟨hnoRemote, hremoteNames, rs, hremoteChecks, hremoteAll⟩ :=
    (gathered_remoteIp lib tools request).part matchers
  obtain ⟨hnoClient, hclientNames, cs, hclientChecks, hclientAll⟩ :=
    (gathered_clientIp lib tools request).part matchers
  have hnoOthers : matchers.filter (·.kind.isNone) = [] ↔ ∀ m ∈ matchers, m.kind ≠ none := by
    simp [filter_eq_nil_iff]
  rw [groups_eq, Groups.parts, hheaders, hqueries]
  refine ⟨_, rfl, ?_, ?_, hs ++ qs ++ ps ++ ms ++ os ++ rs ++ cs, ?_, ?_⟩
  · rw [forall_idle_iff, ← hnoHeaders, ← hnoQueries, ← hnoPaths, ← hnoMethods, ← hnoHosts,
      ← hnoRemote, ← hnoClient, ← hnoOthers]
    simp
  · intro hns
    have hothers : ∀ m ∈ matchers.filter (·.kind.isNone), m.NoNames := fun m hm =>
      hns m (mem_filter.mp hm).1
    simp only [forall_mem_append, and_assoc]
    exact ⟨hheaderNames, hqueryNames, hpathNames, hmethodNames, hhostNames, hremoteNames,
      hclientNames, hothers⟩
  · simp [hheaderChecks, hqueryChecks, hpathChecks, hmethodChecks, hhostChecks, hremoteChecks,
      hclientChecks]
  · rw [Kind.forall_iff, ← hheaderAll, ← hqueryAll, ← hpathAll, ← hmethodAll, ← hhostAll,
      ← hremoteAll, ← hclientAll]
    simp

variable {order : HashOrder}

/-- A block has no matcher when nothing adds to it. -/
theorem mergeMatcherSet_eq_none (lib : MatcherLib http) (tools : Tools)
    (request : MatcherRequest (RequestFacts http)) :
    mergeMatcherSet order matchers = none ↔ ∀ m ∈ matchers, m.Idle := by
  obtain ⟨parts, hpts, hni, -⟩ := parts_eq lib tools request order matchers
  rw [mergeMatcherSet, hpts, ← hni]
  cases parts with
  | nil => exact iff_of_true rfl rfl
  | cons m parts => exact iff_of_false (by simp [conjunction]) (by simp)

variable (lib tools request) in
/-- The matcher of a block: every kind must accept, then the other matchers in order. -/
theorem check_mergeMatcherSet (h : mergeMatcherSet order matchers = some m) :
    ((∀ k, Served lib tools request matchers k) → m.check lib tools request =
        .all ((matchers.filter (·.kind.isNone)).map (·.check lib tools request))) ∧
      (¬ (∀ k, Served lib tools request matchers k) → m.check lib tools request = .test false) := by
  obtain ⟨parts, hpts, -, -, bs, hcks, ha⟩ := parts_eq lib tools request order matchers
  rw [mergeMatcherSet, hpts] at h
  have hm : conjunction parts = some m := h
  rw [check_conjunction hm, hcks, all_append_tests, ← ha]
  exact ⟨fun h => if_pos h, fun h => if_neg h⟩

/-- A block whose lines hold no names has a matcher without names. -/
theorem noNames_mergeMatcherSet (lib : MatcherLib http) (tools : Tools)
    (request : MatcherRequest (RequestFacts http)) (hns : ∀ m ∈ matchers, m.NoNames)
    (h : mergeMatcherSet order matchers = some m) : m.NoNames := by
  obtain ⟨parts, hpts, -, hpartNames, -⟩ := parts_eq lib tools request order matchers
  rw [mergeMatcherSet, hpts] at h
  have hm : conjunction parts = some m := h
  exact noNames_conjunction hm (hpartNames hns)

end Merge

/-! ### What blocks say -/

section Blocks

variable {http : HttpLib} (lib : MatcherLib http) (tools : Tools)
  (request : MatcherRequest (RequestFacts http))

/-- One line as it runs. A line that cannot be read accepts nothing. -/
def Directive.check (d : Directive) : Check Variables :=
  match parseSingleMatcher tools d with
  | .ok m => m.check lib tools request
  | .error _ => .test false

def Directive.Accepts (vars : Variables) (d : Directive) : Prop :=
  (d.check lib tools request vars).1 = .matched

/-- The lines that are conditions of their own, one after another. Each sees the variables that
those before it left. -/
def conditions (lines : List Directive) : Check Variables :=
  .all ((lines.filter (·.kind.isNone)).map (·.check lib tools request))

/-- Of the lines of each kind, one accepts. Kinds are told apart by what `view` shows of them. -/
def Alternatives (view : Kind → Kind) (lines : List Directive) (vars : Variables) : Prop :=
  ∀ line ∈ lines, ∀ kind, line.kind = some kind →
    ∃ other ∈ lines, other.kind.map view = some (view kind) ∧ other.Accepts lib tools request vars

/-- What a block says: of the lines of each kind, one accepts, and so do all other lines. -/
def Says (lines : List Directive) (vars : Variables) : Prop :=
  Alternatives lib tools request Kind.ignoringCase lines vars ∧
    (conditions lib tools request lines vars).1 = .matched

def full (lines : List Directive) : List Directive := lines.filter (¬ ·.Bare)

/-- Of the lines of each kind, one accepts, where header fields are told apart by their spelling
and lines without arguments do not count. -/
def Spelled (lines : List Directive) (vars : Variables) : Prop :=
  Alternatives lib tools request id (full lines) vars

def Dropped (lines : List Directive) : Prop :=
  ∃ line ∈ lines, line.Bare ∧ ∀ other ∈ lines, other.kind = line.kind → other.Bare

/-- A block is refused, or its matcher accepts a request when its lines say so. -/
def Honest (order : HashOrder) (d : Directive) (lines : List Directive) (vars : Variables) : Prop :=
  ∃ result, parseMatcherDefinition tools order { d with block := some lines } = some result ∧
    ∀ m, result = .ok m →
      ((m.check lib tools request vars).1 = .matched ↔ Says lib tools request lines vars)

/-- Some line has arguments. A request that these lines let through meets no kind without any, and
one that the block lets through is let through by every spelling of a header field. -/
structure Plain (lines : List Directive) (vars : Variables) : Prop where
  some_full : ∃ line ∈ lines, ¬ line.Bare
  kept : Spelled lib tools request lines vars →
    (conditions lib tools request lines vars).1 = .matched → ¬ Dropped lines
  spelled : Says lib tools request lines vars → Spelled lib tools request lines vars

variable {lib tools request} {lines : List Directive} {vars : Variables} {d : Directive}
  {m : AstMatcher}

theorem idle_tests (h : m.Idle) : m.tests lib tools request = some false := by
  cases m with
  | path | method | host =>
    cases h
    rfl
  | remoteIp | clientIp =>
    cases h
    exact congrArg some (any_inRanges tools _ [])
  | _ => exact h.elim

theorem check_of_parse (h : parseSingleMatcher tools d = .ok m) :
    d.check lib tools request = m.check lib tools request := by
  rw [Directive.check, h]

theorem accepts_iff (h : parseSingleMatcher tools d = .ok m) (hk : d.kind ≠ none) :
    d.Accepts lib tools request vars ↔ m.tests lib tools request = some true := by
  have htst : m.tests lib tools request ≠ none := by
    rw [Ne, tests_eq_none_iff, (reads_of_parse h).kind_eq]
    exact hk
  obtain ⟨b, hb⟩ := Option.ne_none_iff_exists'.mp htst
  rw [Directive.Accepts, check_of_parse h, check_of_tests lib tools request hb, hb]
  cases b <;> simp [test, boolVerdict]

theorem Directive.Bare.not_accepts (hba : d.Bare) (h : parseSingleMatcher tools d = .ok m) :
    ¬ d.Accepts lib tools request vars := by
  have hk : d.kind ≠ none := by
    rcases hba.kind with hk | hk <;> simp [hk]
  rw [accepts_iff h hk, idle_tests ((reads_of_parse h).idle_iff.mpr hba)]
  simp

section Read

variable {matchers : List AstMatcher} (h : lines.mapM (parseSingleMatcher tools) = .ok matchers)

include h

theorem conditions_eq :
    .all ((matchers.filter (·.kind.isNone)).map (·.check lib tools request)) =
      conditions lib tools request lines := by
  have hma : matchers.map (fun m => (m.kind, m.check lib tools request)) =
      lines.map fun d => (d.kind, d.check lib tools request) :=
    map_of_mapM h fun d m hm =>
      Prod.ext (reads_of_parse hm).kind_eq (check_of_parse hm).symm
  have hfilter := congrArg (fun ps => (ps.filter (·.1.isNone)).map Prod.snd) hma
  simp only [filter_map, map_map, Function.comp_def] at hfilter
  rw [conditions, hfilter]

/-- The merged matcher tells kinds apart by spelling, and sees no line without arguments. -/
theorem served_iff (vars : Variables) :
    (∀ k, Served lib tools request matchers k) ↔ Spelled lib tools request lines vars := by
  constructor
  · intro hsvd line hli kind hk
    obtain ⟨hli, hba⟩ := mem_filter.mp hli
    obtain ⟨m, hm, hps⟩ := exists_of_mem_items h hli
    have hidle : ¬ m.Idle := by
      rw [(reads_of_parse hps).idle_iff]
      simpa using hba
    obtain ⟨m', hm', hk', htst⟩ := hsvd kind ⟨m, hm, hidle, (reads_of_parse hps).kind_eq.trans hk⟩
    obtain ⟨o, ho, hps'⟩ := exists_of_mem_mapM h hm'
    have hok : o.kind = some kind := (reads_of_parse hps').kind_eq.symm.trans hk'
    have hac : o.Accepts lib tools request vars := (accepts_iff hps' (by simp [hok])).mpr htst
    refine ⟨o, mem_filter.mpr ⟨ho, ?_⟩, by simp [hok], hac⟩
    simpa using fun hba' : o.Bare => hba'.not_accepts hps' hac
  · rintro hspl k ⟨m, hm, hidle, hk⟩
    obtain ⟨line, hli, hps⟩ := exists_of_mem_mapM h hm
    have hba : ¬ line.Bare := by rwa [← (reads_of_parse hps).idle_iff]
    obtain ⟨o, ho, hk', hac⟩ := hspl line (mem_filter.mpr ⟨hli, by simpa using hba⟩) k
      ((reads_of_parse hps).kind_eq.symm.trans hk)
    have hok : o.kind = some k := by simpa using hk'
    obtain ⟨m', hm', hps'⟩ := exists_of_mem_items h (mem_filter.mp ho).1
    refine ⟨m', hm', (reads_of_parse hps').kind_eq.trans hok, ?_⟩
    exact (accepts_iff hps' (by simp [hok])).mp hac

variable {order : HashOrder}

theorem merge_eq_none_iff (lib : MatcherLib http) (request : MatcherRequest (RequestFacts http)) :
    mergeMatcherSet order matchers = none ↔ ∀ line ∈ lines, line.Bare := by
  rw [mergeMatcherSet_eq_none lib tools request]
  constructor
  · intro hidle line hli
    obtain ⟨m, hm, hps⟩ := exists_of_mem_items h hli
    exact (reads_of_parse hps).idle_iff.mp (hidle m hm)
  · intro hba m hm
    obtain ⟨line, hli, hps⟩ := exists_of_mem_mapM h hm
    exact (reads_of_parse hps).idle_iff.mpr (hba line hli)

variable (lib request vars) in
/-- What the merged matcher says. -/
theorem merged_eq (hm : mergeMatcherSet order matchers = some m) :
    (Spelled lib tools request lines vars →
        m.check lib tools request = conditions lib tools request lines) ∧
      (¬ Spelled lib tools request lines vars → m.check lib tools request = .test false) := by
  obtain ⟨ha, hnone⟩ := check_mergeMatcherSet lib tools request hm
  rw [served_iff h vars] at ha hnone
  rw [← conditions_eq h]
  exact ⟨ha, hnone⟩

theorem merged_matched_iff (hm : mergeMatcherSet order matchers = some m) :
    (m.check lib tools request vars).1 = .matched ↔ Spelled lib tools request lines vars ∧
      (conditions lib tools request lines vars).1 = .matched := by
  obtain ⟨hspl, hn⟩ := merged_eq lib request vars h hm
  by_cases hs : Spelled lib tools request lines vars
  · simp [hspl hs, hs]
  · simp [hn hs, hs, test, boolVerdict]

theorem merged_noMatch_iff (hm : mergeMatcherSet order matchers = some m) :
    (m.check lib tools request vars).1 = .noMatch ↔ ¬ Spelled lib tools request lines vars ∨
      (conditions lib tools request lines vars).1 = .noMatch := by
  obtain ⟨hspl, hn⟩ := merged_eq lib request vars h hm
  by_cases hs : Spelled lib tools request lines vars
  · simp [hspl hs, hs]
  · simp [hn hs, hs, test, boolVerdict]

theorem Says.not_dropped (hsaid : Says lib tools request lines vars) : ¬ Dropped lines := by
  rintro ⟨line, hline, hbare, hall⟩
  -- patterns and methods are no header fields, so nothing is lost by ignoring case
  have hsame : ∀ {kind kind' : Kind}, kind = .path ∨ kind = .method →
      kind'.ignoringCase = kind.ignoringCase → kind' = kind := by
    rintro kind kind' (rfl | rfl) heq <;> cases kind' <;> simp_all [Kind.ignoringCase]
  obtain ⟨kind, hkind, hpathMethod⟩ :
      ∃ kind, line.kind = some kind ∧ (kind = .path ∨ kind = .method) := by
    rcases hbare.kind with hkind | hkind
    · exact ⟨_, hkind, .inl rfl⟩
    · exact ⟨_, hkind, .inr rfl⟩
  obtain ⟨o, ho, hok, hacc⟩ := hsaid.1 line hline kind hkind
  obtain ⟨kind', hkind', heq⟩ := Option.map_eq_some_iff.mp hok
  obtain rfl := hsame hpathMethod heq
  obtain ⟨m, -, hps⟩ := exists_of_mem_items h ho
  exact (hall o ho (hkind'.trans hkind.symm)).not_accepts hps hacc

omit h in
/-- Where no kind is without arguments, spelling apart, the block is what its lines say. -/
theorem says_of_spelled (hspl : Spelled lib tools request lines vars)
    (hcs : (conditions lib tools request lines vars).1 = .matched)
    (hdr : ¬ Dropped lines) : Says lib tools request lines vars := by
  refine ⟨fun line hli kind hk => ?_, hcs⟩
  obtain ⟨line', hli', hk', hba'⟩ : ∃ line' ∈ lines, line'.kind = line.kind ∧ ¬ line'.Bare := by
    by_cases hba : line.Bare
    · by_contra hnone
      push Not at hnone
      exact hdr ⟨line, hli, hba, hnone⟩
    · exact ⟨line, hli, rfl, hba⟩
  obtain ⟨o, ho, hok, hac⟩ := hspl line'
    (mem_filter.mpr ⟨hli', by simpa using hba'⟩) kind (hk'.trans hk)
  have hkindOther : o.kind = some kind := by simpa using hok
  exact ⟨o, (mem_filter.mp ho).1, by simp [hkindOther], hac⟩

end Read

theorem parseLines_eq_ok {name : Bytes} (h : parseLines tools name lines = .ok matchers) :
    lines.mapM (parseSingleMatcher tools) = .ok matchers := by
  obtain ⟨matchers', hmts, h⟩ := bind_eq_ok.mp h
  split at h
  · cases h
  · obtain ⟨_, _, h⟩ := bind_eq_ok.mp h
    cases h
    exact hmts

variable {order : HashOrder}

theorem definition_of_error (hblk : d.block = some lines) {e : AdapterError}
    (h : parseLines tools d.name lines = .error e) :
    parseMatcherDefinition tools order d = some (.error e) := by
  simp [parseMatcherDefinition, hblk, h]

theorem definition_of_ok (hblk : d.block = some lines)
    (h : parseLines tools d.name lines = .ok matchers) :
    parseMatcherDefinition tools order d = (mergeMatcherSet order matchers).map .ok := by
  simp [parseMatcherDefinition, hblk, h]

/-- A block whose lines can be read has a matcher that accepts a request when its lines say so,
exactly when the block is plain for the request. -/
theorem honest_iff (order : HashOrder) (d : Directive) (lines : List Directive) (vars : Variables) :
    Honest lib tools request order d lines vars ↔
      ∀ matchers, parseLines tools d.name lines = .ok matchers →
        Plain lib tools request lines vars := by
  cases hls : parseLines tools d.name lines with
  | error e =>
    refine iff_of_true ⟨.error e, definition_of_error rfl hls, ?_⟩ (by simp)
    intro m hm
    cases hm
  | ok matchers =>
    have hps := parseLines_eq_ok hls
    have hdef : parseMatcherDefinition tools order { d with block := some lines } =
        (mergeMatcherSet order matchers).map .ok := definition_of_ok rfl hls
    cases hmrg : mergeMatcherSet order matchers with
    | none =>
      have hba := (merge_eq_none_iff hps lib request).mp hmrg
      refine iff_of_false ?_ ?_
      · rintro ⟨result, hres, -⟩
        rw [hdef, hmrg] at hres
        cases hres
      · intro hpl
        obtain ⟨line, hli, hfull⟩ := (hpl matchers rfl).some_full
        exact hfull (hba line hli)
    | some m =>
      have hfull : ∃ line ∈ lines, ¬ line.Bare := by
        by_contra hnone
        push Not at hnone
        rw [(merge_eq_none_iff hps lib request).mpr hnone] at hmrg
        cases hmrg
      have hhonest : Honest lib tools request order d lines vars ↔
          (Spelled lib tools request lines vars ∧
            (conditions lib tools request lines vars).1 = .matched ↔
              Says lib tools request lines vars) := by
        rw [← merged_matched_iff hps hmrg, Honest, hdef, hmrg]
        simp
      rw [hhonest]
      constructor
      · rintro hiff matchers' -
        exact ⟨hfull, fun hs hc => (hiff.mp ⟨hs, hc⟩).not_dropped hps, fun hm => (hiff.mpr hm).1⟩
      · intro hpl
        obtain ⟨-, hkp, hspl⟩ := hpl matchers rfl
        exact ⟨fun ⟨hs, hc⟩ => says_of_spelled hs hc (hkp hs hc), fun hm => ⟨hspl hm, hm.2⟩⟩

/-! ### Negated blocks -/

theorem parseNot_mono {parse parse' : Directive → Except AdapterError AstMatcher}
    (hps : ∀ d m, parse d = .ok m → parse' d = .ok m) (h : parseNot parse d = .ok m) :
    parseNot parse' d = .ok m := by
  rw [parseNot] at h ⊢
  cases hblk : d.block with
  | some b =>
    rw [hblk] at h
    obtain ⟨ms, hmts, h⟩ := bind_eq_ok.mp h
    exact bind_eq_ok.mpr ⟨ms, mapM_mono hps hmts, h⟩
  | none =>
    rw [hblk] at h
    cases har : d.args with
    | nil =>
      rw [har] at h
      cases h
    | cons name a =>
      rw [har] at h
      obtain ⟨i, hin, rfl⟩ := map_eq_ok.mp h
      exact map_eq_ok.mpr ⟨i, hps _ _ hin, rfl⟩

theorem parseSingleMatcherAt_not (levels : Nat) (hn : d.name = ascii "not") :
    parseSingleMatcherAt tools (levels + 1) d = parseNot (parseSingleMatcherAt tools levels) d := by
  have hp : d.name ≠ ascii "path" := by
    rw [hn]
    decide
  have hfl : d.name ≠ ascii "file" := by
    rw [hn]
    decide
  rw [parseSingleMatcherAt, if_neg hp, if_neg hfl, if_pos hn]

variable {levels : Nat}

theorem parse_succ (h : parseSingleMatcherAt tools levels d = .ok m) :
    parseSingleMatcherAt tools (levels + 1) d = .ok m := by
  induction levels generalizing d m with
  | zero => cases h
  | succ levels ih =>
    by_cases hn : d.name = ascii "not"
    · rw [parseSingleMatcherAt_not _ hn] at h ⊢
      exact parseNot_mono (fun d m h => ih h) h
    · rw [parseSingleMatcherAt] at h ⊢
      rwa [if_neg hn] at h ⊢

theorem parse_of_le {levels' : Nat} (hle : levels ≤ levels')
    (h : parseSingleMatcherAt tools levels d = .ok m) :
    parseSingleMatcherAt tools levels' d = .ok m := by
  induction hle with
  | refl => exact h
  | step _ ih => exact parse_succ ih

/-- The lines of a block read alike at every depth. -/
theorem lines_eq {levels' : Nat} {matchers' : List AstMatcher}
    (h : lines.mapM (parseSingleMatcherAt tools levels) = .ok matchers)
    (h' : lines.mapM (parseSingleMatcherAt tools levels') = .ok matchers') :
    matchers = matchers' := by
  rcases Nat.le_total levels levels' with hle | hle
  · exact Except.ok.inj ((mapM_mono (fun _ _ => parse_of_le hle) h).symm.trans h')
  · exact Except.ok.inj (h.symm.trans (mapM_mono (fun _ _ => parse_of_le hle) h'))

def EachAccepts (lib : MatcherLib http) (tools : Tools)
    (request : MatcherRequest (RequestFacts http)) (lines : List Directive) (vars : Variables) :
    Prop :=
  ∀ line ∈ lines, line.kind ≠ none → line.Accepts lib tools request vars

/-- A line asks for a status before any line rejects. -/
def Raises (lib : MatcherLib http) (tools : Tools) (request : MatcherRequest (RequestFacts http))
    (lines : List Directive) (vars : Variables) : Prop :=
  ∃ before line after, lines = before ++ line :: after ∧
    (Check.all (before.map (·.check lib tools request)) vars).1 = .matched ∧
    ∃ status, (line.check lib tools request
      (Check.all (before.map (·.check lib tools request)) vars).2).1 = .error status

def Directive.tests (lib : MatcherLib http) (tools : Tools)
    (request : MatcherRequest (RequestFacts http)) (d : Directive) : Option Bool :=
  match parseSingleMatcher tools d with
  | .ok m => m.tests lib tools request
  | .error _ => none

theorem check_eq_test (d : Directive) (b : Bool) (h : d.tests lib tools request = some b) :
    d.check lib tools request = .test b := by
  rw [Directive.tests] at h
  rw [Directive.check]
  split at h
  · exact check_of_tests lib tools request h
  · cases h

/-- What a negated block runs as. -/
theorem check_of_negation {negation : Directive} {n : AstMatcher} (hn : negation.name = ascii "not")
    (hblk : negation.block = some lines) (hnt : parseSingleMatcherAt tools levels negation = .ok n)
    (hls : lines.mapM (parseSingleMatcher tools) = .ok matchers) :
    n.check lib tools request = .negate (.all (lines.map (·.check lib tools request))) := by
  cases levels with
  | zero => cases hnt
  | succ levels =>
    rw [parseSingleMatcherAt_not levels hn] at hnt
    obtain ⟨matchers', i, hmts, hin, rfl⟩ := parseNot_block hblk hnt
    obtain rfl := lines_eq hmts hls
    have hcks : matchers'.map (·.check lib tools request) = lines.map (·.check lib tools request) :=
      map_of_mapM hls fun _ _ hm => (check_of_parse hm).symm
    rw [check, check_conjunction hin, hcks]

theorem definition_eq_ok {definition : Directive} (hblk : definition.block = some lines)
    (h : parseMatcherDefinition tools order definition = some (.ok m)) :
    ∃ matchers, lines.mapM (parseSingleMatcher tools) = .ok matchers ∧
      mergeMatcherSet order matchers = some m := by
  cases hls : parseLines tools definition.name lines with
  | error e =>
    rw [definition_of_error hblk hls] at h
    cases h
  | ok matchers =>
    rw [definition_of_ok hblk hls] at h
    obtain ⟨m', hm', heq⟩ := Option.map_eq_some_iff.mp h
    cases heq
    exact ⟨matchers, parseLines_eq_ok hls, hm'⟩

/-- The router evaluates a block's matcher, once it is compiled, as the matcher says. -/
theorem evaluateNode_definition {definition : Directive} (hblk : definition.block = some lines)
    (h : parseMatcherDefinition tools order definition = some (.ok m))
    {matchers : Bytes → Option AstMatcher} {levels : Nat} {core : Matcher LeafMatcher}
    (hcore : compileMatcher tools matchers levels m = .ok core) :
    evaluateNode (evaluateLeaf lib) request (MatcherNode.compile core) =
      m.check lib tools request := by
  obtain ⟨parsed, hpsd, hmrg⟩ := definition_eq_ok hblk h
  refine evaluateNode_compileMatcher (noNames_mergeMatcherSet lib tools request ?_ hmrg) hcore
  intro m hm
  obtain ⟨line, -, hli⟩ := exists_of_mem_mapM hpsd hm
  exact (reads_of_parse hli).noNames

section Tests

variable {matchers : List AstMatcher} (h : lines.mapM (parseSingleMatcher tools) = .ok matchers)

include h

theorem tests_eq_none (hli : d ∈ lines) : d.tests lib tools request = none ↔ d.kind = none := by
  obtain ⟨m, -, hps⟩ := exists_of_mem_items h hli
  rw [Directive.tests, hps, ← (reads_of_parse hps).kind_eq]
  exact tests_eq_none_iff lib tools request

theorem conditions_eq_filter :
    conditions lib tools request lines =
      .all ((lines.filter (Directive.tests lib tools request · = none)).map
        (·.check lib tools request)) := by
  have hfilter : lines.filter (·.kind.isNone) =
      lines.filter (Directive.tests lib tools request · = none) :=
    filter_congr fun d hd => by
      rw [Bool.eq_iff_iff, Option.isNone_iff_eq_none, decide_eq_true_iff, tests_eq_none h hd]
  rw [conditions, hfilter]

theorem eachAccepts_iff (vars : Variables) :
    EachAccepts lib tools request lines vars ↔
      ∀ line ∈ lines, line.tests lib tools request ≠ some false := by
  refine forall₂_congr fun line hli => ?_
  obtain ⟨m, -, hps⟩ := exists_of_mem_items h hli
  by_cases hk : line.kind = none
  · have hnone : line.tests lib tools request = none := (tests_eq_none h hli).mpr hk
    simp [hk, hnone]
  · have hs : m.tests lib tools request ≠ none := by
      rw [Ne, tests_eq_none_iff, (reads_of_parse hps).kind_eq]
      exact hk
    obtain ⟨b, hb⟩ := Option.ne_none_iff_exists'.mp hs
    simp [hk, accepts_iff hps hk, Directive.tests, hps, hb]

omit h in
theorem EachAccepts.spelled (ha : EachAccepts lib tools request lines vars) :
    Spelled lib tools request lines vars := by
  intro line hli kind hk
  exact ⟨line, hli, by simp [hk], ha line (mem_filter.mp hli).1 (by simp [hk])⟩

end Tests

/-- A negated block accepts the requests that the block rejects, exactly when all lines of a kind
accept the request, or another line rejects it, or the kinds have a line that accepts just where a
status is asked for first. -/
theorem negates_iff {order : HashOrder} {levels : Nat} {negation definition : Directive}
    {n m : AstMatcher} (hname : negation.name = ascii "not")
    (hnegation : negation.block = some lines) (hdefinition : definition.block = some lines)
    (hnot : parseSingleMatcherAt tools levels negation = .ok n)
    (hblock : parseMatcherDefinition tools order definition = some (.ok m)) (vars : Variables) :
    ((n.check lib tools request vars).1 = .matched ↔
        (m.check lib tools request vars).1 = .noMatch) ↔
      EachAccepts lib tools request lines vars ∨
        (conditions lib tools request lines vars).1 = .noMatch ∨
        (Spelled lib tools request lines vars ↔ Raises lib tools request lines vars) := by
  obtain ⟨ms, hls, hmrg⟩ := definition_eq_ok hdefinition hblock
  rw [check_of_negation hname hnegation hnot hls, matched_negate, merged_noMatch_iff hls hmrg]
  have hraises : Raises lib tools request lines vars ↔ ∃ status,
      (Check.all (lines.map (·.check lib tools request)) vars).1 = .error status :=
    error_all_iff.symm
  by_cases ha : EachAccepts lib tools request lines vars
  · have heq : Check.all (lines.map (·.check lib tools request)) =
        conditions lib tools request lines := by
      rw [conditions_eq_filter hls]
      exact all_filter_of_tests check_eq_test ((eachAccepts_iff hls vars).mp ha)
    rw [heq]
    simp [ha, ha.spelled]
  · have hrej : (Check.all (lines.map (·.check lib tools request)) vars).1 ≠ .matched := by
      rw [eachAccepts_iff hls vars] at ha
      push Not at ha
      obtain ⟨line, hli, htst⟩ := ha
      exact not_matched_all check_eq_test hli htst vars
    by_cases hcs : (conditions lib tools request lines vars).1 = .noMatch
    · have hnoMatch : (Check.all (lines.map (·.check lib tools request)) vars).1 = .noMatch := by
        rw [conditions_eq_filter hls] at hcs
        exact noMatch_all_of_others check_eq_test hcs
      simp [hcs, hnoMatch]
    · rw [hraises]
      rcases hvd : (Check.all (lines.map (·.check lib tools request)) vars).1 with
        _ | _ | status
      · exact absurd hvd hrej
      · simp [ha, hcs, hvd]
      · simp [ha, hcs, hvd]

end Blocks

namespace Entrance

def lib : MatcherLib FieldLines.http where
  regexes _ := none
  resolvePlaceholder _ _ _ := []
  evaluateFile _ _ _ _ _ vars := (.noMatch, vars)

def tools : Tools := ⟨fun _ => .error [], fun _ => none, id⟩

def order : HashOrder := ⟨fun l => l, fun l => .refl l⟩

def line (name : String) (args : List String) : Directive :=
  ⟨ascii name, args.map ascii, none, false⟩

def definition (args : List String) (lines : List Directive) : Directive :=
  ⟨ascii "@staff", args.map ascii, some lines, false⟩

def negation (lines : List Directive) : Directive := ⟨ascii "not", [], some lines, false⟩

def staffPath : Utf8.Str := ⟨ascii "/staff", rfl⟩

def request : MatcherRequest (RequestFacts FieldLines.http) where
  path := staffPath
  method := ascii "GET"
  facts := { headers := FieldLines.append [] (ascii "x-role") (ascii "guard")
             host := ascii "example.com", addresses := ⟨none, none⟩, protocol := ascii "https" }

def noPattern : List Directive := [line "path" []]

def noPatternOnHost : List Directive := [line "path" [], line "host" ["example.com"]]

def twoRoles : List Directive :=
  [line "header" ["X-Role", "guard"], line "header" ["x-role", "cook"]]

theorem accepts_guard : (line "header" ["X-Role", "guard"]).Accepts lib tools request none := by
  unfold Directive.Accepts
  decide

theorem says_twoRoles : Says lib tools request twoRoles none := by
  refine ⟨fun o ho kind hkind => ?_, rfl⟩
  have hfld : o.kind.map Kind.ignoringCase = some (.header (ascii "x-role")) := by
    rcases mem_pair.mp ho with rfl | rfl <;> decide
  rw [hkind, Option.map_some] at hfld
  refine ⟨line "header" ["X-Role", "guard"], mem_cons_self, ?_, accepts_guard⟩
  rw [hfld]
  decide

/-- A block of nothing but a line without patterns panics. Beside another line, a line without
patterns is dropped. And fields that are spelled differently are no alternatives. -/
theorem not_honest :
    parseMatcherDefinition tools order (definition [] noPattern) = none ∧
      ¬ Honest lib tools request order (definition [] []) noPatternOnHost none ∧
      ¬ Honest lib tools request order (definition [] []) twoRoles none := by
  refine ⟨by decide, ?_, ?_⟩
  · rintro ⟨result, hres, hhonest⟩
    have hps : parseMatcherDefinition tools order (definition [] noPatternOnHost) =
        some (.ok (.host [ascii "example.com"])) := by decide
    obtain rfl := Option.some.inj (hps.symm.trans hres)
    have hsaid := (hhonest _ rfl).mp (by decide)
    obtain ⟨o, ho, hkind, hacc⟩ := hsaid.1 (line "path" []) mem_cons_self .path (by decide)
    rcases mem_pair.mp ho with rfl | rfl
    · exact absurd hacc (by unfold Directive.Accepts; decide)
    · exact absurd hkind (by decide)
  · rintro ⟨result, hres, hhonest⟩
    have hps : parseMatcherDefinition tools order (definition [] twoRoles) =
        some (.ok (.and (.header ⟨ascii "x-role", .equals (ascii "cook")⟩)
          (.header ⟨ascii "X-Role", .equals (ascii "guard")⟩))) := by decide
    obtain rfl := Option.some.inj (hps.symm.trans hres)
    exact absurd ((hhonest _ rfl).mpr says_twoRoles) (by decide)

def twoPaths : List Directive := [line "path" ["/staff"], line "path" ["/kitchen"]]

def staffOnHost : List Directive := [line "path" ["/staff"], line "host" ["example.com"]]

theorem eachAccepts_staffOnHost : EachAccepts lib tools request staffOnHost none := by
  intro o ho _
  rcases mem_pair.mp ho with rfl | rfl <;> (unfold Directive.Accepts; decide)

theorem negates_staffOnHost :
    ((AstMatcher.not (.and (.path [ascii "/staff"]) (.host [ascii "example.com"]))).check lib tools
          request none).1 = .matched ↔
        ((AstMatcher.and (.path [ascii "/staff"]) (.host [ascii "example.com"])).check lib tools
          request none).1 = .noMatch := by
  have hn : parseSingleMatcherAt tools 2 (negation staffOnHost) =
      .ok (.not (.and (.path [ascii "/staff"]) (.host [ascii "example.com"]))) := by
    decide
  have hblk : parseMatcherDefinition tools order (definition [] staffOnHost) =
      some (.ok (.and (.path [ascii "/staff"]) (.host [ascii "example.com"]))) := by
    decide
  exact (negates_iff rfl rfl rfl hn hblk none).mpr (.inl eachAccepts_staffOnHost)

theorem evaluateNode_staffOnHost :
    evaluateNode (evaluateLeaf lib) request
        (.compile (.and (.path [ascii "/staff"]) (.leaf (.host [ascii "example.com"])))) =
      (AstMatcher.and (.path [ascii "/staff"]) (.host [ascii "example.com"])).check lib tools
        request :=
  evaluateNode_definition (show (definition [] staffOnHost).block = _ from rfl)
    (show parseMatcherDefinition tools order _ = _ by decide)
    (show compileMatcher tools (fun _ => none) 2 _ = _ from rfl)

/-- A negated block of two paths accepts what the block accepts, and a negation before the block of
a definition is no negation. -/
theorem not_negates :
    (∃ n m, parseSingleMatcher tools (negation twoPaths) = .ok n ∧
      parseMatcherDefinition tools order (definition [] twoPaths) = some (.ok m) ∧
      (n.check lib tools request none).1 = .matched ∧
      (m.check lib tools request none).1 = .matched) ∧
    parseMatcherDefinition tools order (definition ["not"] twoPaths) =
      parseMatcherDefinition tools order (definition [] twoPaths) := by
  refine ⟨⟨.not (.and (.path [ascii "/staff"]) (.path [ascii "/kitchen"])),
    .path [ascii "/staff", ascii "/kitchen"], ?_, ?_, ?_, ?_⟩, rfl⟩
  all_goals decide

end Entrance

end Pingclair.Caddyfile
