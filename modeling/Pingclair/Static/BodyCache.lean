import Mathlib.Algebra.BigOperators.Fin
import Mathlib.Data.List.AList
import Pingclair.Lib.ByteText
import Pingclair.Lib.Runs

/-!
# Cached bodies

Every route has a cache of bodies, and all of them share a budget of bytes. A cache makes room for a
body by dropping its own least recently used ones, and drops all of them when that is not enough.
A body larger than the whole budget is refused at once, so that the one before it stays.
-/

namespace Pingclair

open ByteText List

structure BodyCache (K : Type) where
  entries : AList fun _ : K => Bytes
  /-- The least recently used key is in front. -/
  lru : List K
  bytes : Nat

namespace BodyCache

variable {K : Type} [DecidableEq K] (limit : Nat)

def touch (c : BodyCache K) (key : K) : BodyCache K := { c with lru := c.lru.erase key ++ [key] }

def get (c : BodyCache K) (key : K) : BodyCache K × Option Bytes :=
  match c.entries.lookup key with
  | some value => (c.touch key, some value)
  | none => (c, none)

def remove (c : BodyCache K) (used : Nat) (key : K) : BodyCache K × Nat :=
  match c.entries.lookup key with
  | some old =>
    (⟨c.entries.erase key, c.lru.erase key, c.bytes - old.length⟩, used - old.length)
  | none => (c, used)

/-- The loop of `insert`, and whether it got its reservations. `grants` is what the budget of
entries says, which all caches of the process share, when so many keys are left. -/
def makeRoom (size : Nat) (grants : Nat → Bool) :
    (lru : List K) → (c : BodyCache K) → (used : Nat) → BodyCache K × Nat × Bool
  | [], c, used => ({ c with lru := [] }, used, used + size ≤ limit ∧ grants 0)
  | key :: lru, c, used =>
    if used + size ≤ limit ∧ grants (lru.length + 1) then ({ c with lru := key :: lru }, used, true)
    else makeRoom size grants lru (c.remove used key).1 (c.remove used key).2

/-- The cache, the bytes that are reserved then, and whether the body is stored. -/
def insert (c : BodyCache K) (used : Nat) (key : K) (value : Bytes) (grants : Nat → Bool) :
    BodyCache K × Nat × Bool :=
  if limit < value.length then (c, used, false)
  else
    let old := c.remove used key
    match makeRoom limit value.length grants old.1.lru old.1 old.2 with
    | (c, used, true) =>
      (⟨c.entries.insert key value, c.lru ++ [key], c.bytes + value.length⟩,
        used + value.length, true)
    | room => room

inductive Op (K : Type)
  | get (key : K)
  | insert (key : K) (value : Bytes) (grants : Nat → Bool)

def Op.key : Op K → K
  | .get key => key
  | .insert key _ _ => key

/-- The value that a call inserts under a key, unless the budget is smaller. -/
def Op.value (key : K) : Op K → Option Bytes
  | .get _ => none
  | .insert k value _ => if k = key ∧ value.length ≤ limit then some value else none

/-- A call, and whether it used the entry of its key. -/
def call (c : BodyCache K) (used : Nat) : Op K → BodyCache K × Nat × Bool
  | .get key => ((c.get key).1, used, (c.get key).2.isSome)
  | .insert key value grants => c.insert limit used key value grants

structure Sound (c : BodyCache K) : Prop where
  perm : c.lru.Perm c.entries.keys
  bytes : c.bytes = (c.entries.entries.map (·.2.length)).sum

variable {limit} {c : BodyCache K} {used o : Nat}

theorem Sound.remove (h : c.Sound) (hu : used = o + c.bytes) (key : K) :
    let r := c.remove used key
    r.1.Sound ∧ r.2 = o + r.1.bytes ∧ r.1.entries.entries.Sublist c.entries.entries ∧
      r.1.lru = c.lru.erase key := by
  rw [BodyCache.remove]
  cases hf : c.entries.lookup key with
  | none =>
    have hk : key ∉ c.lru := fun hk => AList.lookup_eq_none.mp hf (h.perm.mem_iff.mp hk)
    exact ⟨h, hu, Sublist.refl _, (erase_of_not_mem hk).symm⟩
  | some old =>
    have hm := AList.mem_lookup_iff.mp hf
    obtain ⟨v, l, m, -, he, hr⟩ := exists_of_kerase (mem_keys_of_mem hm)
    obtain rfl : old = v := c.entries.nodupKeys.eq_of_mk_mem hm (he ▸ by simp)
    have hb : c.bytes = old.length + ((kerase key c.entries.entries).map (·.2.length)).sum := by
      rw [h.bytes, hr, he]
      simp [Nat.add_left_comm]
    refine ⟨⟨?_, Nat.sub_eq_of_eq_add' hb⟩, by dsimp only; omega, kerase_sublist .., rfl⟩
    exact AList.keys_erase key c.entries ▸ h.perm.erase key

theorem Sound.makeRoom (h : c.Sound) (limit size : Nat) (grants : Nat → Bool) {lru : List K}
    (hl : c.lru = lru) (hu : used = o + c.bytes) :
    let r := BodyCache.makeRoom limit size grants lru c used
    r.1.Sound ∧ r.2.1 = o + r.1.bytes ∧ r.1.entries.entries.Sublist c.entries.entries ∧
      r.1.lru <:+ lru ∧
      (r.2.2 = true → r.2.1 + size ≤ limit) ∧ (r.2.2 = false → r.1.lru = []) := by
  induction lru generalizing c used with
  | nil =>
    obtain ⟨_, _, _⟩ := c
    cases hl
    refine ⟨h, hu, Sublist.refl _, suffix_rfl, ?_, fun _ => rfl⟩
    simp +contextual [BodyCache.makeRoom]
  | cons k lru ih =>
    obtain ⟨_, _, _⟩ := c
    cases hl
    rw [BodyCache.makeRoom]
    split
    · next hg => exact ⟨h, hu, Sublist.refl _, suffix_rfl, fun _ => hg.1, nofun⟩
    · obtain ⟨hs, hv, he, hk⟩ := h.remove hu k
      obtain ⟨hs', hv', he', hk', ht⟩ := ih hs (by rw [hk, erase_cons_head]) hv
      exact ⟨hs', hv', he'.trans he, hk'.trans (suffix_cons k lru), ht⟩

/-- What a call leaves of a cache. Entries are evicted from the front of the recency list, and a
call that does not use its key leaves all of them or none. -/
def Evicts (c : BodyCache K) (key : K) (r : BodyCache K × Nat × Bool) : Prop :=
  if r.2.2 then ∃ kept, kept <:+ c.lru.erase key ∧ r.1.lru = kept ++ [key]
  else r.1 = c ∨ r.1.lru = []

/-- What holds after a call, when the other caches have reserved `o` bytes. -/
structure Served (limit o : Nat) (c : BodyCache K) (op : Op K) (r : BodyCache K × Nat × Bool) :
    Prop where
  sound : r.1.Sound
  used_eq : r.2.1 = o + r.1.bytes
  used_le : r.2.1 ≤ limit
  evicts : c.Evicts op.key r
  values : ∀ e ∈ r.1.entries.entries, op.value limit e.1 = some e.2 ∨
    op.value limit e.1 = none ∧ e ∈ c.entries.entries

theorem Sound.insert {key : K} {value : Bytes} {grants : Nat → Bool} (h : c.Sound)
    (hu : used = o + c.bytes) (hle : used ≤ limit) :
    Served limit o c (.insert key value grants) (c.insert limit used key value grants) := by
  rw [BodyCache.insert]
  split
  · next hn =>
    exact ⟨h, hu, hle, .inl rfl, fun e he => .inr ⟨if_neg fun hk => hn.not_ge hk.2, he⟩⟩
  · next hn =>
    obtain ⟨hs, hv, he, hk⟩ := h.remove hu key
    have hroom := hs.makeRoom limit value.length grants rfl hv
    dsimp only
    match BodyCache.makeRoom limit value.length grants (c.remove used key).1.lru
      (c.remove used key).1 (c.remove used key).2, hroom with
    | (c', u, false), ⟨hs', hv', _, _, _, hno⟩ =>
      have hl : c'.lru = [] := hno rfl
      have hnil : c'.entries.entries = [] := by simpa [hl, AList.keys, keys] using hs'.perm
      have hb : c'.bytes = 0 := hs'.bytes.trans (by simp [hnil])
      refine ⟨hs', hv', ?_, .inr hl, by simp [hnil]⟩
      dsimp only at hv' ⊢
      omega
    | (c', u, true), ⟨hs', hv', he', hk', hok, _⟩ =>
      have hnew : key ∉ c'.entries := fun hm =>
        (h.perm.nodup_iff.mpr c.entries.keys_nodup).not_mem_erase
          (hk ▸ hk'.subset (hs'.perm.mem_iff.mpr hm))
      have hin : (c'.entries.insert key value).entries = ⟨key, value⟩ :: c'.entries.entries :=
        AList.entries_insert_of_notMem hnew
      refine ⟨⟨?_, ?_⟩, ?_, hok rfl, ⟨c'.lru, hk ▸ hk', rfl⟩, ?_⟩
      · rw [AList.keys, hin]
        exact (perm_append_singleton ..).trans (hs'.perm.cons key)
      · rw [hin, map_cons, sum_cons, ← hs'.bytes, Nat.add_comm]
      · dsimp only at hv' ⊢
        omega
      · rw [hin]
        rintro e (_ | ⟨_, hm⟩)
        · exact .inl (if_pos ⟨rfl, not_lt.mp hn⟩)
        · refine .inr ⟨if_neg fun hk => hnew ?_, (he'.trans he).subset hm⟩
          exact hk.1 ▸ mem_keys_of_mem hm

theorem Sound.call (h : c.Sound) (hu : used = o + c.bytes) (hle : used ≤ limit) (op : Op K) :
    Served limit o c op (c.call limit used op) := by
  cases op with
  | insert key value grants => exact h.insert hu hle
  | get key =>
    dsimp only [BodyCache.call, BodyCache.get, Op.key]
    cases hf : c.entries.lookup key with
    | none => exact ⟨h, hu, hle, by simp [Evicts], fun e he => .inr ⟨rfl, he⟩⟩
    | some value =>
      have hk : key ∈ c.lru := h.perm.mem_iff.mpr (AList.lookup_isSome.mp (by simp [hf]))
      have hp : (c.lru.erase key ++ [key]).Perm c.lru :=
        (perm_append_singleton ..).trans (perm_cons_erase hk).symm
      exact ⟨⟨hp.trans h.perm, h.bytes⟩, hu, hle, ⟨_, suffix_rfl, rfl⟩, fun e he => .inr ⟨rfl, he⟩⟩

end BodyCache

structure BodyCaches (n : Nat) (K : Type) where
  caches : Fin n → BodyCache K
  used : Nat

namespace BodyCaches

open BodyCache

variable {n : Nat} {K : Type} [DecidableEq K] (limit : Nat)

def step (s : BodyCaches n K) (x : Fin n × Op K) : BodyCaches n K :=
  let r := (s.caches x.1).call limit s.used x.2
  ⟨Function.update s.caches x.1 r.1, r.2.1⟩

def machine : Machine (BodyCaches n K) (Fin n × Op K) := ⟨⟨fun _ => ⟨∅, [], 0⟩, 0⟩, step limit⟩

def lastInserted (i : Fin n) (key : K) (calls : List (Fin n × Op K)) : Option Bytes :=
  calls.reverse.findSome? fun x => if x.1 = i then x.2.value limit key else none

structure Kept (s : BodyCaches n K) (calls : List (Fin n × Op K)) : Prop where
  used_eq : s.used = ∑ i, (s.caches i).bytes
  used_le : s.used ≤ limit
  sound : ∀ i, (s.caches i).Sound
  last : ∀ i, ∀ e ∈ (s.caches i).entries.entries, lastInserted limit i e.1 calls = some e.2

variable {limit} {s : BodyCaches n K} {calls : List (Fin n × Op K)}

theorem Kept.used_eq_add (h : Kept limit s calls) (i : Fin n) :
    s.used = ∑ j ∈ Finset.univ.erase i, (s.caches j).bytes + (s.caches i).bytes := by
  rw [h.used_eq, Finset.sum_erase_add _ _ (Finset.mem_univ i)]

theorem Kept.step (h : Kept limit s calls) (x : Fin n × Op K) :
    Kept limit (s.step limit x) (calls ++ [x]) := by
  obtain ⟨i, op⟩ := x
  obtain ⟨hs, hv, hle, -, he⟩ := (h.sound i).call (h.used_eq_add i) h.used_le op
  refine ⟨?_, hle, (Function.forall_update_iff s.caches fun _ c => c.Sound).mpr
    ⟨hs, fun j _ => h.sound j⟩, fun j e hm => ?_⟩
  · rw [← Finset.sum_erase_add _ _ (Finset.mem_univ i), Finset.sum_congr rfl fun j hj => ?_]
    · simpa [BodyCaches.step] using hv
    · simp [BodyCaches.step, Finset.ne_of_mem_erase hj]
  · have hla := h.last j e
    rw [lastInserted] at hla ⊢
    rw [reverse_append, reverse_singleton, singleton_append, findSome?_cons]
    by_cases hj : j = i
    · subst hj
      simp only [BodyCaches.step, Function.update_self] at hm
      rcases he e hm with hv | ⟨hv, hm⟩
      · simp [hv]
      · simpa [hv] using hla hm
    · simp only [BodyCaches.step, Function.update_of_ne hj] at hm
      simpa [Ne.symm hj] using hla hm

theorem caches_kept (limit : Nat) (calls : List (Fin n × Op K)) :
    let s := (machine limit).run calls
    Kept limit s calls ∧ ∀ i,
      (∀ op, (s.caches i).Evicts op.key ((s.caches i).call limit s.used op)) ∧
      ∀ key v, ((s.caches i).get key).2 = some v → lastInserted limit i key calls = some v := by
  have hk : Kept limit ((machine limit).run calls) calls := by
    induction calls using List.reverseRecOn with
    | nil => exact ⟨Finset.sum_const_zero.symm, Nat.zero_le _, fun _ => ⟨.nil, rfl⟩, nofun⟩
    | append_singleton calls x ih =>
      rw [Machine.run, foldl_append]
      exact ih.step x
  refine ⟨hk, fun i => ⟨fun op => ?_, fun key v hv => ?_⟩⟩
  · exact ((hk.sound i).call (hk.used_eq_add i) hk.used_le op).evicts
  · refine hk.last i ⟨key, v⟩ (AList.mem_lookup_iff.mp (.trans ?_ hv))
    rw [BodyCache.get]
    split <;> assumption

end BodyCaches

end Pingclair
