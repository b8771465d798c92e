import Pingclair.Lib.SortedMap
import Pingclair.Path.Pattern
import Pingclair.Routing.Radix

/-!
# Candidate routes

Which routes a request can match, decided before any request. Every node of the radix tree
carries the indices of the routes that can match a path landing there, in list order;
`build` computes them from the routes' paths. All texts are in lower case.
-/

namespace Pingclair

open ByteText AsciiCase List RadixNode

inductive RoutePath where
  /-- `/`, `/*`, `*`, or empty: every request. -/
  | any
  /-- A pattern whose only `*` is its last character, stored without it. -/
  | prefixed (text : Bytes)
  /-- No `*` at all. -/
  | exact (text : Bytes)
  /-- Any other placement of `*`, tested for each candidate. -/
  | wildcard (pattern : PathPattern)
  deriving DecidableEq

/-- The set of paths one radix node answers for. -/
inductive Node where
  | exact (text : Bytes)
  | prefixed (text : Bytes)
  deriving DecidableEq

namespace RoutePath

def of (path : Bytes) : RoutePath :=
  if path = [] ∨ path = [slash] ∨ path = [slash, star] ∨ path = [star] then any
  else
    match PathPattern.of path with
    | .any => any
    | .exact text => exact text
    | .prefixed text => prefixed text
    | pattern => wildcard pattern

def covers : RoutePath → Node → Bool
  | any, _ => true
  | exact route, .exact node => route = node
  | exact _, .prefixed _ => false
  -- `/proxy/*` also answers the bare `/proxy`
  | prefixed route, .exact node =>
    route.isPrefixOf node || route.dropSuffix? [slash] = some node
  | prefixed route, .prefixed node => route.isPrefixOf node
  | wildcard pattern, .exact node => pattern.matches node
  -- one of the two literal texts has to extend the other
  | wildcard pattern, .prefixed node =>
    startsWith node pattern.literalPrefix || startsWith pattern.literalPrefix node

def isDefault : RoutePath → Bool
  | any | wildcard _ => true
  | prefixed _ | exact _ => false

end RoutePath

/-- The pattern to test for each request before a route counts as matching. -/
def wildcard (path : Bytes) : Option PathPattern :=
  match RoutePath.of path with
  | .wildcard pattern => some pattern
  | _ => none

/-- The bare paths a trailing `*` should also match: `/proxy` and `/proxy/` for `/proxy/*`,
`/foo` for `/foo*`. -/
def barePrefixes (path : Bytes) : List Bytes :=
  match path.dropSuffix? [slash, star] with
  | some text => if text = [] then [] else [text, text ++ [slash]]
  | none =>
    match path.dropSuffix? [star] with
    | some text => if text = [] then [] else [text]
    | none => []

def escapeLiteral (path : Bytes) : Bytes :=
  (path.flatMap fun b => if b = openBrace then [openBrace, openBrace] else [b]).flatMap
    fun b => if b = closeBrace then [closeBrace, closeBrace] else [b]

def globToMatchit (path : Bytes) : Bytes :=
  match path.dropSuffix? [star] with
  | some text => escapeLiteral text ++ ascii "\x7b*rest\x7d"
  | none => []  -- the source panics; only called where the path ends in `*`

/-- The nodes that one route adds, keyed by their radix pattern. -/
def addRoute (nodes : List (Bytes × Node)) (path : Bytes) : List (Bytes × Node) :=
  match RoutePath.of path with
  | .any | .wildcard _ => nodes
  | .exact text => SortedMap.insert (escapeLiteral text) (.exact text) nodes
  | .prefixed text =>
    (barePrefixes path).foldl (fun nodes bare =>
        SortedMap.orInsert (escapeLiteral bare) (.exact (path.take bare.length)) nodes)
      (SortedMap.insert (globToMatchit path) (.prefixed text) nodes)

def indicesOf (kinds : List RoutePath) (test : RoutePath → Bool) : List Nat :=
  (List.range kinds.length).filter fun i => (kinds[i]?).any test

/-- The pre-filter: for each radix pattern the routes that can match there, and the routes
for a path that lands on no node. -/
structure Candidates where
  nodes : List (Bytes × List Nat)
  any : List Nat

def build (routes : List Bytes) : Candidates :=
  let paths := routes.map fold
  let kinds := paths.map RoutePath.of
  let nodes := paths.foldl addRoute []
  { nodes := nodes.map fun entry => (entry.1, indicesOf kinds (·.covers entry.2))
    any := indicesOf kinds (·.isDefault) }

def nodeKey : Node → Bytes
  | .exact text => escapeLiteral text
  | .prefixed text => escapeLiteral text ++ ascii "\x7b*rest\x7d"

def radixNode : Node → RadixNode
  | .exact text => .literal text
  | .prefixed text => .catchAll text

theorem escapeLiteral_cons (b : UInt8) (path : Bytes) :
    escapeLiteral (b :: path) =
      (if b = openBrace ∨ b = closeBrace then [b, b] else [b]) ++ escapeLiteral path := by
  by_cases ho : b = openBrace
  · subst ho
    simp [escapeLiteral, openBrace, closeBrace]
  · by_cases hc : b = closeBrace <;> simp [escapeLiteral, ho, hc]

/-- Escaped text is read back. -/
theorem parse_escapeLiteral (path rest : Bytes) :
    parse (escapeLiteral path ++ rest) =
      (parse rest).map fun node => path.foldr RadixNode.cons node := by
  induction path with
  | nil => simp [escapeLiteral]
  | cons b path ih =>
    rw [escapeLiteral_cons, append_assoc]
    split
    · next hb =>
      rw [cons_append, singleton_append, parse_brace hb, ih, Option.map_map]
      rfl
    · next hb =>
      rw [singleton_append, parse_cons (not_or.mp hb).1 (not_or.mp hb).2, ih, Option.map_map]
      rfl

theorem parse_nodeKey (node : Node) : parse (nodeKey node) = some (radixNode node) := by
  cases node with
  | exact text =>
    have hfo : ∀ text : Bytes, text.foldr RadixNode.cons (.literal []) = .literal text := by
      intro text
      induction text with
      | nil => rfl
      | cons b text ih => rw [foldr_cons, ih]; rfl
    rw [nodeKey, ← append_nil (escapeLiteral text), parse_escapeLiteral]
    exact congrArg some (hfo text)
  | prefixed text =>
    have hfo : ∀ text : Bytes, text.foldr RadixNode.cons (.catchAll []) = .catchAll text := by
      intro text
      induction text with
      | nil => rfl
      | cons b text ih => rw [foldr_cons, ih]; rfl
    have hrest : parse (ascii "\x7b*rest\x7d") = some (.catchAll []) := by decide
    rw [nodeKey, parse_escapeLiteral, hrest]
    exact congrArg some (hfo text)

theorem nodeKey_injective {node node' : Node} (h : nodeKey node = nodeKey node') :
    node = node' := by
  have hradix : radixNode node = radixNode node' := by
    rw [← Option.some_inj, ← parse_nodeKey, ← parse_nodeKey, h]
  cases node <;> cases node' <;> simp_all [radixNode]

variable {path text : Bytes} {landing : Option Node}

theorem RoutePath.of_eq_prefixed (h : of path = prefixed text) :
    path = text ++ [star] ∧ star ∉ text ∧ text ≠ [] ∧ text ≠ [slash] := by
  rw [of] at h
  split_ifs at h with hany
  split at h
  case h_3 hof =>
    cases h
    obtain ⟨rfl, hstar, hne⟩ := PathPattern.of_eq_prefixed.mp hof
    refine ⟨rfl, hstar, hne, ?_⟩
    rintro rfl
    exact hany (by simp)
  all_goals simp at h

def ownNodes (path : Bytes) : List Node :=
  match RoutePath.of path with
  | .any | .wildcard _ => []
  | .exact text => [.exact text]
  | .prefixed text => .prefixed text :: (barePrefixes path).map .exact

def WellKeyed (nodes : List (Bytes × Node)) : Prop := ∀ entry ∈ nodes, entry.1 = nodeKey entry.2

def Registered (nodes : List (Bytes × Node)) (node : Node) : Prop := (nodeKey node, node) ∈ nodes

/-- `nodes'` is well keyed and has every node of `nodes`, and `node` too. -/
structure Registers (nodes nodes' : List (Bytes × Node)) (added : List Node) : Prop where
  wellKeyed : WellKeyed nodes'
  kept : ∀ node, Registered nodes node → Registered nodes' node
  added : ∀ node ∈ added, Registered nodes' node

variable {nodes nodes' nodes'' : List (Bytes × Node)}

theorem Registers.trans {added added' : List Node} (h : Registers nodes nodes' added)
    (h' : Registers nodes' nodes'' added') : Registers nodes nodes'' (added ++ added') where
  wellKeyed := h'.wellKeyed
  kept node hnode := h'.kept node (h.kept node hnode)
  added := forall_mem_append.mpr ⟨fun node hnode => h'.kept node (h.added node hnode), h'.added⟩

theorem globToMatchit_append (text : Bytes) :
    globToMatchit (text ++ [star]) = nodeKey (.prefixed text) := by
  have hdr : (text ++ [star]).dropSuffix? [star] = some text := dropSuffix?_eq_some.mpr rfl
  rw [globToMatchit, hdr]
  rfl

theorem prefix_of_mem_barePrefixes {bare : Bytes} (h : bare ∈ barePrefixes path) :
    bare <+: path := by
  rw [barePrefixes] at h
  split at h
  · next text hdrop =>
    obtain rfl := dropSuffix?_eq_some.mp hdrop
    split at h
    · exact absurd h not_mem_nil
    · rcases mem_pair.mp h with rfl | rfl
      · exact prefix_append ..
      · exact ⟨[star], by simp⟩
  · split at h
    · next text hdrop =>
      obtain rfl := dropSuffix?_eq_some.mp hdrop
      split at h
      · exact absurd h not_mem_nil
      · rw [mem_singleton.mp h]
        exact prefix_append ..
    · exact absurd h not_mem_nil

theorem mem_barePrefixes (hne : text ≠ []) (hsl : text ≠ [slash]) :
    text ∈ barePrefixes (text ++ [star]) ∧
      ∀ bare, text.dropSuffix? [slash] = some bare → bare ∈ barePrefixes (text ++ [star]) := by
  have hstar : (text ++ [star]).dropSuffix? [star] = some text := dropSuffix?_eq_some.mpr rfl
  cases hdr : text.dropSuffix? [slash] with
  | none =>
    have hnone : (text ++ [star]).dropSuffix? [slash, star] = none := by
      cases h : (text ++ [star]).dropSuffix? [slash, star] with
      | none => rfl
      | some bare =>
        have heq : text ++ [star] = bare ++ [slash] ++ [star] := by
          rw [dropSuffix?_eq_some.mp h]
          simp
        rw [dropSuffix?_eq_some.mpr (append_cancel_right heq)] at hdr
        simp at hdr
    simp [barePrefixes, hnone, hstar, hne]
  | some bare =>
    obtain rfl := dropSuffix?_eq_some.mp hdr
    have hba : bare ≠ [] := by
      rintro rfl
      exact hsl rfl
    have hs : (bare ++ [slash] ++ [star]).dropSuffix? [slash, star] = some bare :=
      dropSuffix?_eq_some.mpr (by simp)
    rw [barePrefixes, hs]
    simp [hba]

section Registers

variable (h : WellKeyed nodes)

include h

theorem WellKeyed.registered {node : Node}
    (hk : ∃ other, (nodeKey node, other) ∈ nodes) : Registered nodes node := by
  obtain ⟨other, hmem⟩ := hk
  obtain rfl : node = other := nodeKey_injective (h _ hmem)
  exact hmem

theorem WellKeyed.upsert (node : Node) {f : Option Node → Node}
    (hnone : f none = node) (hs : f (some node) = node) :
    Registers nodes (SortedMap.upsert (nodeKey node) f nodes) [node] := by
  have hkeyed : WellKeyed (SortedMap.upsert (nodeKey node) f nodes) := by
    intro entry he
    rcases SortedMap.mem_upsert he with he | rfl | ⟨o, ho, rfl⟩
    · exact h entry he
    · rw [hnone]
    · obtain rfl := nodeKey_injective (h _ ho)
      rw [hs]
  refine ⟨hkeyed, fun o ho => ?_, fun o ho => ?_⟩
  · exact hkeyed.registered (SortedMap.exists_mem_upsert_of_mem _ _ ho)
  · rw [mem_singleton.mp ho]
    exact hkeyed.registered (SortedMap.exists_mem_upsert _ _ _)

theorem WellKeyed.insert (node : Node) :
    Registers nodes (SortedMap.insert (nodeKey node) node nodes) [node] :=
  h.upsert node rfl rfl

theorem WellKeyed.orInsert (node : Node) :
    Registers nodes (SortedMap.orInsert (nodeKey node) node nodes) [node] :=
  h.upsert node rfl rfl

theorem foldl_bare_registers {bares : List Bytes} (hbares : ∀ bare ∈ bares, bare <+: path) :
    Registers nodes (bares.foldl (fun nodes bare =>
        SortedMap.orInsert (escapeLiteral bare) (.exact (path.take bare.length)) nodes) nodes)
      (bares.map .exact) := by
  induction bares generalizing nodes with
  | nil => exact ⟨h, fun _ hnode => hnode, by simp⟩
  | cons bare bares ih =>
    have htk : path.take bare.length = bare :=
      (prefix_iff_eq_take.mp (hbares bare mem_cons_self)).symm
    have hf := h.orInsert (.exact bare)
    rw [foldl_cons, htk]
    exact hf.trans (ih hf.wellKeyed (forall_mem_cons.mp hbares).2)

theorem addRoute_registers (path : Bytes) :
    Registers nodes (addRoute nodes path) (ownNodes path) := by
  rw [addRoute, ownNodes]
  cases hof : RoutePath.of path with
  | any | wildcard pattern => exact ⟨h, fun _ hnode => hnode, by simp⟩
  | exact text => exact h.insert (.exact text)
  | prefixed text =>
    obtain ⟨rfl, -⟩ := RoutePath.of_eq_prefixed hof
    have hf := h.insert (.prefixed text)
    rw [← globToMatchit_append] at hf
    exact hf.trans (foldl_bare_registers hf.wellKeyed fun _ => prefix_of_mem_barePrefixes)

theorem foldl_addRoute_registers (paths : List Bytes) :
    Registers nodes (paths.foldl addRoute nodes) (paths.flatMap ownNodes) := by
  induction paths generalizing nodes with
  | nil => exact ⟨h, fun _ hnode => hnode, by simp⟩
  | cons p paths ih =>
    have hf := addRoute_registers h p
    exact hf.trans (ih hf.wellKeyed)

end Registers

/-- What a route's path accepts, texts in lower case. -/
def RoutePath.accepts : RoutePath → Bytes → Bool
  | any, _ => true
  | exact text, path => text = path
  | prefixed text, path => text.isPrefixOf path || text.dropSuffix? [slash] = some path
  | wildcard pattern, path => pattern.matches path

/-- The node that a path lands on: its own exact node, or without one the longest prefix
node in front of at least one more byte, or none. -/
inductive Lands (nodes : List (Bytes × Node)) (path : Bytes) : Option Node → Prop
  | exact : Registered nodes (.exact path) → Lands nodes path (some (.exact path))
  | prefixed {text : Bytes} : ¬Registered nodes (.exact path) →
      Registered nodes (.prefixed text) → text <+: path → text ≠ path →
      (∀ text', Registered nodes (.prefixed text') → text' <+: path → text' ≠ path →
        text'.length ≤ text.length) →
      Lands nodes path (some (.prefixed text))
  | nowhere : ¬Registered nodes (.exact path) →
      (∀ text, Registered nodes (.prefixed text) → ¬(text <+: path ∧ text ≠ path)) →
      Lands nodes path none

/-- Whether a route is in the list for the node a path landed on. -/
def RoutePath.listed (kind : RoutePath) : Option Node → Bool
  | some node => kind.covers node
  | none => kind.isDefault

private theorem exists_longest {p : Bytes → Prop} {bound : Nat}
    (hbd : ∀ text, p text → text.length ≤ bound) (hex : ∃ text, p text) :
    ∃ text, p text ∧ ∀ text', p text' → text'.length ≤ text.length := by
  induction bound with
  | zero =>
    obtain ⟨text, ht⟩ := hex
    exact ⟨text, ht, fun text' h => (hbd text' h).trans (Nat.zero_le _)⟩
  | succ bound ih =>
    by_cases hlg : ∃ text, p text ∧ text.length = bound + 1
    · obtain ⟨text, ht, hlen⟩ := hlg
      exact ⟨text, ht, fun text' h => hlen ▸ hbd text' h⟩
    · apply ih
      intro text ht
      have := hbd text ht
      have : text.length ≠ bound + 1 := fun hlen => hlg ⟨text, ht, hlen⟩
      omega

/-- The tree sends a path to the node it lands on. -/
theorem exists_lands {V : Type} (radix : Radix V) (hkeyed : WellKeyed nodes)
    (value : Node → V) {tree : radix.Tree}
    (hcmp : radix.compile (nodes.map fun entry => (entry.1, value entry.2)) = some tree)
    (path : Bytes) :
    ∃ landing, Lands nodes path landing ∧ radix.lookup tree path = landing.map value := by
  have hps : ∀ e ∈ nodes.map fun entry => (entry.1, value entry.2),
      ∃ node, Registered nodes node ∧ parse e.1 = some (radixNode node) := by
    intro e he
    obtain ⟨entry, hentry, rfl⟩ := mem_map.mp he
    have hk := hkeyed entry hentry
    refine ⟨entry.2, ?_, ?_⟩
    · rw [Registered, ← hk]
      exact hentry
    · rw [hk, parse_nodeKey]
  have hs : ∀ e ∈ nodes.map fun entry => (entry.1, value entry.2), (parse e.1).isSome := by
    intro e he
    obtain ⟨node, -, h⟩ := hps e he
    simp [h]
  have hmem : ∀ {node}, Registered nodes node →
      (nodeKey node, value node) ∈ nodes.map fun entry => (entry.1, value entry.2) :=
    fun h => mem_map.mpr ⟨_, h, rfl⟩
  by_cases hex : Registered nodes (.exact path)
  · exact ⟨_, .exact hex, radix.lookup_literal hcmp hs (hmem hex) (parse_nodeKey (.exact path))⟩
  by_cases hpre : ∃ text, Registered nodes (.prefixed text) ∧ text <+: path ∧ text ≠ path
  · obtain ⟨text, ⟨hreg, htx, hne⟩, hma⟩ := exists_longest (fun _ h => h.2.1.length_le) hpre
    refine ⟨_, .prefixed hex hreg htx hne fun t h₁ h₂ h₃ => hma t ⟨h₁, h₂, h₃⟩, ?_⟩
    refine radix.lookup_catchAll hcmp hs ?_ (hmem hreg) (parse_nodeKey (.prefixed text))
      ⟨htx, hne⟩ ?_
    · intro e he heq
      obtain ⟨node, hnode, hn⟩ := hps e he
      rw [hn] at heq
      cases node <;> simp only [radixNode, Option.some.injEq, literal.injEq, reduceCtorEq] at heq
      subst heq
      exact hex hnode
    · intro e he text' heq hrc
      obtain ⟨node, hnode, hn⟩ := hps e he
      rw [hn] at heq
      cases node <;> simp only [radixNode, Option.some.injEq, catchAll.injEq, reduceCtorEq] at heq
      subst heq
      exact hma _ ⟨hnode, hrc⟩
  · refine ⟨none, .nowhere hex fun t ht h => hpre ⟨t, ht, h⟩, ?_⟩
    refine radix.lookup_none hcmp hs ?_
    intro e he node hnode hrc
    obtain ⟨node', hnode', hn⟩ := hps e he
    obtain rfl : radixNode node' = node := by simpa [hn] using hnode
    cases node' with
    | exact text =>
      obtain rfl : text = path := hrc
      exact hex hnode'
    | prefixed text => exact hpre ⟨text, hnode', hrc⟩

theorem fold_isPrefix_fold {s t : Bytes} (h : s <+: t) : fold s <+: fold t := h.map lower

/-- An exact node is on the way of its own path only. -/
theorem Lands.listed_exact (hland : Lands nodes path landing)
    (how : Registered nodes (.exact text)) :
    (RoutePath.exact text).listed landing = true ↔ text = path := by
  cases hland with
  | exact h => simp [RoutePath.listed, RoutePath.covers]
  | prefixed hno _ _ _ _ =>
    refine iff_of_false (by simp [RoutePath.listed, RoutePath.covers]) ?_
    rintro rfl
    exact hno how
  | nowhere hno _ =>
    refine iff_of_false (by simp [RoutePath.listed, RoutePath.isDefault]) ?_
    rintro rfl
    exact hno how

/-- A prefix route is listed for the paths that start with its text, and for its text without
the final slash. -/
theorem Lands.listed_prefixed (hland : Lands nodes path landing)
    (how : Registered nodes (.prefixed text)) (hself : Registered nodes (.exact text))
    (hba : ∀ bare, text.dropSuffix? [slash] = some bare → Registered nodes (.exact bare)) :
    (RoutePath.prefixed text).listed landing = true ↔
      text <+: path ∨ text.dropSuffix? [slash] = some path := by
  -- a path with no exact node is neither the text nor the text without its slash
  have hproper : ¬Registered nodes (.exact path) →
      (text <+: path ∨ text.dropSuffix? [slash] = some path) → text <+: path ∧ text ≠ path := by
    rintro hno (hpre | hdr)
    · refine ⟨hpre, ?_⟩
      rintro rfl
      exact hno hself
    · exact absurd (hba path hdr) hno
  cases hland with
  | exact h => simp [RoutePath.listed, RoutePath.covers, isPrefixOf_iff_prefix]
  | @prefixed n hno hnode hpre hne hma =>
    simp only [RoutePath.listed, RoutePath.covers, isPrefixOf_iff_prefix]
    constructor
    · intro h
      exact .inl (h.trans hpre)
    · intro h
      obtain ⟨ht, htne⟩ := hproper hno h
      exact prefix_of_prefix_length_le ht hpre (hma text how ht htne)
  | nowhere hno hnone =>
    refine iff_of_false (by simp [RoutePath.listed, RoutePath.isDefault]) ?_
    intro h
    exact hnone text how (hproper hno h)

/-- A route with a pattern to test is listed wherever the pattern matches. -/
theorem Lands.listed_wildcard (hland : Lands nodes path landing) {pattern : PathPattern}
    (h : pattern.matches path = true) : (RoutePath.wildcard pattern).listed landing = true := by
  cases hland with
  | exact _ => exact h
  | prefixed _ _ hpre _ _ =>
    simp only [RoutePath.listed, RoutePath.covers, Bool.or_eq_true, startsWith_iff]
    exact prefix_or_prefix_of_prefix (literalPrefix_of_matches h) (fold_isPrefix_fold hpre)
  | nowhere _ _ => rfl

/-- A route that needs no further test is listed exactly where its path accepts; a route
with a pattern to test is listed wherever the pattern matches. -/
theorem listed_iff_accepts (hland : Lands nodes path landing) {route : Bytes}
    (how : ∀ node ∈ ownNodes route, Registered nodes node) :
    ((RoutePath.of route).listed landing = true ∧
      ∀ pattern, RoutePath.of route = .wildcard pattern → pattern.matches path = true) ↔
      (RoutePath.of route).accepts path = true := by
  rw [ownNodes] at how
  cases hof : RoutePath.of route with
  | any => cases landing <;> simp [RoutePath.listed, RoutePath.covers, RoutePath.isDefault,
      RoutePath.accepts]
  | exact text =>
    rw [hof] at how
    simpa [RoutePath.accepts] using hland.listed_exact (how _ (by simp))
  | prefixed text =>
    rw [hof] at how
    obtain ⟨rfl, -, hne, hsl⟩ := RoutePath.of_eq_prefixed hof
    obtain ⟨hself, hba⟩ := mem_barePrefixes hne hsl
    have hex : ∀ b ∈ barePrefixes (text ++ [star]), Registered nodes (.exact b) :=
      fun b hb => how _ (mem_cons_of_mem _ (mem_map_of_mem hb))
    have := hland.listed_prefixed (how _ mem_cons_self) (hex text hself)
      fun bare hdr => hex bare (hba bare hdr)
    simpa [RoutePath.accepts, isPrefixOf_iff_prefix] using this
  | wildcard pattern =>
    constructor
    · rintro ⟨-, h⟩
      exact h pattern rfl
    · intro h
      refine ⟨hland.listed_wildcard h, ?_⟩
      rintro _ ⟨⟩
      exact h

end Pingclair
