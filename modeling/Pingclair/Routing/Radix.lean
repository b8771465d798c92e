import Mathlib.Data.List.Nodup
import Pingclair.Lib.ByteText

/-!
# The radix tree

The router's radix tree is another library's. `Radix` is what it relies on: each insertion may be
refused, and a lookup prefers the literal node equal to the path, then the catch-all node with the
longest text in front of at least one more byte. `parse` reads the pattern syntax: doubled braces
are literal braces, `{*name}` at the end is a catch-all.
-/

namespace Pingclair

open ByteText List Option

abbrev openBrace : UInt8 := 0x7B
abbrev closeBrace : UInt8 := 0x7D

@[simp] theorem closeBrace_ne_openBrace : closeBrace ≠ openBrace := by decide

inductive RadixNode where
  | literal (text : Bytes)
  | catchAll (text : Bytes)
  deriving DecidableEq

namespace RadixNode

def cons (b : UInt8) : RadixNode → RadixNode
  | literal text => literal (b :: text)
  | catchAll text => catchAll (b :: text)

/-- The pattern syntax, as far as the router writes it: other parameters are not read. -/
def parse : Bytes → Option RadixNode
  | [] => some (literal [])
  | [b] => if b = openBrace ∨ b = closeBrace then none else some (literal [b])
  | b :: c :: rest =>
    if b = openBrace ∧ c = openBrace ∨ b = closeBrace ∧ c = closeBrace then
      (parse rest).map (cons b)
    else if b = openBrace ∧ c = star ∧ rest.getLast? = some closeBrace ∧
        rest.dropLast ≠ [] ∧ closeBrace ∉ rest.dropLast then
      some (catchAll [])
    else if b = openBrace ∨ b = closeBrace then none
    else (parse (c :: rest)).map (cons b)

theorem parse_cons {b : UInt8} (ho : b ≠ openBrace) (hc : b ≠ closeBrace) (rest : Bytes) :
    parse (b :: rest) = (parse rest).map (cons b) := by
  cases rest with
  | nil => simp [parse, ho, hc, cons]
  | cons c rest => simp [parse, ho, hc]

theorem parse_brace {b : UInt8} (hb : b = openBrace ∨ b = closeBrace) (rest : Bytes) :
    parse (b :: b :: rest) = (parse rest).map (cons b) := by
  rcases hb with rfl | rfl <;> simp [parse]

/-- The node lies on the way of a path: it is the path, or its text is followed by at least
one more byte. -/
def Reaches (node : RadixNode) (path : Bytes) : Prop :=
  match node with
  | literal text => text = path
  | catchAll text => text <+: path ∧ text ≠ path

end RadixNode

structure RadixOps (V : Type) where
  Tree : Type
  new : Tree
  insert : Tree → Bytes → V → Option Tree
  lookup : Tree → Bytes → Option V

/-- The tree that holds the given entries, when none is refused. -/
def RadixOps.compile {V : Type} (ops : RadixOps V) (entries : List (Bytes × V)) : Option ops.Tree :=
  entries.foldlM (fun tree entry => ops.insert tree entry.1 entry.2) ops.new

/-- A radix tree whose lookup goes by the documented priorities. -/
structure Radix (V : Type) extends RadixOps V where
  lookup_literal : ∀ {entries tree}, toRadixOps.compile entries = some tree →
    (∀ e ∈ entries, (RadixNode.parse e.1).isSome) → ∀ {pattern value path},
    (pattern, value) ∈ entries → RadixNode.parse pattern = some (.literal path) →
    lookup tree path = some value
  lookup_catchAll : ∀ {entries tree}, toRadixOps.compile entries = some tree →
    (∀ e ∈ entries, (RadixNode.parse e.1).isSome) → ∀ {pattern value path text},
    (∀ e ∈ entries, RadixNode.parse e.1 ≠ some (.literal path)) →
    (pattern, value) ∈ entries → RadixNode.parse pattern = some (.catchAll text) →
    (RadixNode.catchAll text).Reaches path →
    (∀ e ∈ entries, ∀ text', RadixNode.parse e.1 = some (.catchAll text') →
      (RadixNode.catchAll text').Reaches path → text'.length ≤ text.length) →
    lookup tree path = some value
  lookup_none : ∀ {entries tree}, toRadixOps.compile entries = some tree →
    (∀ e ∈ entries, (RadixNode.parse e.1).isSome) → ∀ {path},
    (∀ e ∈ entries, ∀ node, RadixNode.parse e.1 = some node → ¬node.Reaches path) →
    lookup tree path = none

namespace Entries

variable {V : Type}

def insert (tree : List (RadixNode × V)) (pattern : Bytes) (value : V) :
    Option (List (RadixNode × V)) :=
  match RadixNode.parse pattern with
  | none => none
  | some node => if node ∈ tree.map Prod.fst then none else some ((node, value) :: tree)

def value (tree : List (RadixNode × V)) (node : RadixNode) : Option V :=
  (tree.find? (·.1 = node)).map Prod.snd

def longest (tree : List (RadixNode × V)) (path : Bytes) : Nat → Option V
  | 0 => none
  | n + 1 => (value tree (.catchAll (path.take n))).or (longest tree path n)

def lookup (tree : List (RadixNode × V)) (path : Bytes) : Option V :=
  (value tree (.literal path)).or (longest tree path path.length)

def ops (V : Type) : RadixOps V := ⟨List (RadixNode × V), [], insert, lookup⟩

/-- The nodes of the tree are those its patterns stand for, each once. -/
theorem mem_compile {entries : List (Bytes × V)} {tree : List (RadixNode × V)}
    (h : (ops V).compile entries = some tree) :
    (tree.map Prod.fst).Nodup ∧ ∀ node value, (node, value) ∈ tree ↔
      ∃ pattern, (pattern, value) ∈ entries ∧ RadixNode.parse pattern = some node := by
  change entries.foldlM (fun tree entry => insert tree entry.1 entry.2) [] = some tree at h
  induction entries using List.reverseRecOn generalizing tree with
  | nil =>
    obtain rfl : [] = tree := Option.some.inj h
    simp
  | append_singleton entries e ih =>
    rw [foldlM_append] at h
    obtain ⟨before, hb, h⟩ := bind_eq_some_iff.mp h
    obtain ⟨hnd, hmem⟩ := ih hb
    rw [foldlM_cons] at h
    obtain ⟨after, hinsert, haf⟩ := bind_eq_some_iff.mp h
    obtain rfl := Option.some.inj haf
    rw [insert] at hinsert
    split at hinsert
    · cases hinsert
    · next node hps =>
      obtain ⟨hnew, hcn⟩ := ite_none_left_eq_some.mp hinsert
      obtain rfl := Option.some.inj hcn
      refine ⟨nodup_cons.mpr ⟨hnew, hnd⟩, fun n v => ?_⟩
      have hone : (∃ p, (p, v) = e ∧ RadixNode.parse p = some n) ↔ (n, v) = (node, e.2) := by
        simp only [Prod.ext_iff, and_assoc, exists_eq_left, hps, some.injEq]
        tauto
      rw [mem_cons, hmem, ← hone, or_comm, ← exists_or]
      simp [or_and_right]

variable {tree : List (RadixNode × V)} {path : Bytes}

theorem value_eq_some_iff (hnd : (tree.map Prod.fst).Nodup) {node : RadixNode} {v : V} :
    value tree node = some v ↔ (node, v) ∈ tree := by
  rw [value, map_eq_some_iff]
  constructor
  · rintro ⟨⟨node', v'⟩, hfi, rfl⟩
    obtain rfl : node' = node := by simpa using List.find?_some hfi
    exact mem_of_find?_eq_some hfi
  · intro hmem
    obtain ⟨e, he⟩ : ∃ e, tree.find? (·.1 = node) = some e := by
      rw [← isSome_iff_exists, List.find?_isSome]
      exact ⟨_, hmem, by simp⟩
    have hnode : e.1 = node := by simpa using List.find?_some he
    have hsm := inj_on_of_nodup_map hnd (mem_of_find?_eq_some he) hmem hnode
    exact ⟨e, he, by rw [hsm]⟩

theorem longest_eq_some {n N : Nat} (hn : n < N) {v : V}
    (hv : value tree (.catchAll (path.take n)) = some v)
    (hma : ∀ m, n < m → m < N → value tree (.catchAll (path.take m)) = none) :
    longest tree path N = some v := by
  induction N with
  | zero => exact absurd hn (Nat.not_lt_zero _)
  | succ N ih =>
    rw [longest]
    by_cases heq : n = N
    · rw [← heq, hv, some_or]
    · rw [hma N (by omega) (by omega)]
      exact ih (by omega) fun m hm hmN => hma m hm (by omega)

theorem longest_eq_none {N : Nat}
    (hno : ∀ m < N, value tree (.catchAll (path.take m)) = none) : longest tree path N = none := by
  induction N with
  | zero => rfl
  | succ N ih =>
    rw [longest, hno N (by omega)]
    exact ih fun m hm => hno m (by omega)

theorem reaches_take {m : Nat} (hm : m < path.length) :
    (RadixNode.catchAll (path.take m)).Reaches path := by
  refine ⟨List.take_prefix m path, fun heq => ?_⟩
  have := congrArg List.length heq
  rw [length_take] at this
  omega

variable {entries : List (Bytes × V)}

variable (h : (ops V).compile entries = some tree)

include h

theorem value_eq_none {node : RadixNode}
    (hno : ∀ e ∈ entries, RadixNode.parse e.1 ≠ some node) : value tree node = none := by
  obtain ⟨hnd, hmem⟩ := mem_compile h
  cases hv : value tree node with
  | none => rfl
  | some v =>
    obtain ⟨pattern, hpat, hps⟩ := (hmem node v).mp ((value_eq_some_iff hnd).mp hv)
    exact absurd hps (hno _ hpat)

theorem lookup_literal {pattern : Bytes} {v : V} (hmem : (pattern, v) ∈ entries)
    (hps : RadixNode.parse pattern = some (.literal path)) : lookup tree path = some v := by
  obtain ⟨hnd, htree⟩ := mem_compile h
  rw [lookup, (value_eq_some_iff hnd).mpr ((htree _ v).mpr ⟨pattern, hmem, hps⟩), some_or]

theorem lookup_catchAll {pattern text : Bytes} {v : V}
    (hlit : ∀ e ∈ entries, RadixNode.parse e.1 ≠ some (.literal path))
    (hmem : (pattern, v) ∈ entries) (hps : RadixNode.parse pattern = some (.catchAll text))
    (hrc : (RadixNode.catchAll text).Reaches path)
    (hma : ∀ e ∈ entries, ∀ text', RadixNode.parse e.1 = some (.catchAll text') →
      (RadixNode.catchAll text').Reaches path → text'.length ≤ text.length) :
    lookup tree path = some v := by
  obtain ⟨hnd, htree⟩ := mem_compile h
  have ht : path.take text.length = text := (prefix_iff_eq_take.mp hrc.1).symm
  have hlen : text.length < path.length := by
    have := hrc.1.length_le
    have : text.length ≠ path.length := fun heq => hrc.2 (hrc.1.eq_of_length heq)
    omega
  rw [lookup, value_eq_none h hlit]
  refine longest_eq_some hlen ?_ ?_
  · rw [ht]
    exact (value_eq_some_iff hnd).mpr ((htree _ v).mpr ⟨pattern, hmem, hps⟩)
  · intro m hm hmlt
    refine value_eq_none h fun e he hps' => ?_
    have := hma e he _ hps' (reaches_take hmlt)
    rw [length_take] at this
    omega

theorem lookup_none
    (hno : ∀ e ∈ entries, ∀ node, RadixNode.parse e.1 = some node → ¬node.Reaches path) :
    lookup tree path = none := by
  have hv : ∀ node : RadixNode, node.Reaches path → value tree node = none :=
    fun node hr => value_eq_none h fun e he hps => hno e he node hps hr
  rw [lookup, hv (.literal path) rfl]
  exact longest_eq_none fun m hm => hv _ (reaches_take hm)

def radix (V : Type) : Radix V where
  toRadixOps := ops V
  lookup_literal h _ _ _ _ := lookup_literal h
  lookup_catchAll h _ _ _ _ _ := lookup_catchAll h
  lookup_none h _ _ := lookup_none h

end Entries

end Pingclair
