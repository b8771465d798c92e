import Mathlib.Data.List.Chain
import Pingclair.Layer4.AddressPolicy
import Pingclair.Layer4.DnsRuntime

/-!
# Walking the aliases of a name

A lookup asks for the addresses of one family and follows aliases: in the response that it has as
far as that goes, and with another query from there on. It keeps the names that it has visited and
ends when it has followed eight aliases. Names are compared without regard to case; here they are of
any type with an equality.
-/

namespace Pingclair.Lookup

open AddressPolicy
open Dns (Failure Layer4IpVersions)

inductive RecordType
  | a
  | aaaa
  deriving DecidableEq

inductive RData (N : Type)
  | a (octets : Vector UInt8 4)
  | aaaa (segments : Vector UInt16 8)
  | cname (name : N)
  | other

structure Record (N : Type) where
  name : N
  ttl : UInt32
  data : RData N

inductive ResponseCode
  | noError
  | nxDomain
  | other

/-- What comes of a query. A response has the instant at which it was received. -/
inductive Reply (N : Type)
  | nxDomain
  | noRecordsFound
  | timeout
  | failed
  | response (code : ResponseCode) (received : Nat) (answers : List (Record N))

structure Use (N : Type) where
  record : Record N
  received : Nat

def Use.deadline {N : Type} (use : Use N) : Nat :=
  use.received + use.record.ttl.toNat * nanosPerSecond

/-- At most 64 different addresses. -/
structure Answer where
  addresses : List SocketAddress
  fresh : Nat
  nodup : addresses.Nodup
  bounded : addresses.length ≤ 64

def Answer.add (answer : Answer) (address : SocketAddress) : Option Answer :=
  if hmem : address ∈ answer.addresses then some answer
  else if hfull : answer.addresses.length = 64 then none
  else some
    { addresses := answer.addresses ++ [address]
      fresh := answer.fresh
      nodup := List.nodup_append.mpr ⟨answer.nodup, List.nodup_singleton _,
        fun _ ha _ hb heq => hmem (List.mem_singleton.mp hb ▸ heq ▸ ha)⟩
      bounded := List.length_append.trans_le
        (Nat.lt_of_le_of_ne answer.bounded hfull) }

def Answer.until (answer : Answer) (deadline : Nat) : Answer :=
  { answer with fresh := min answer.fresh deadline }

variable {N : Type}

def RData.address (kind : RecordType) : RData N → Option IpAddr
  | .a octets => if kind = .a then some (.v4 octets) else none
  | .aaaa segments => if kind = .aaaa then some (.v6 segments) else none
  | .cname _ | .other => none

/-- What the records of one name gave so far. Beside the variables of the source it has the records
that were used. -/
structure Pass (N : Type) where
  cname : Option N
  found : Bool
  answer : Answer
  used : List (Use N)

section

variable [DecidableEq N]

def Pass.take (kind : RecordType) (port : UInt16) (received : Nat) (pass : Pass N)
    (record : Record N) : Except Failure (Pass N) :=
  let use : Use N := ⟨record, received⟩
  match record.data with
  | .cname name =>
    if pass.cname.any fun old => !decide (old = name) then .error .invalid
    else .ok { pass with
      cname := some name
      answer := pass.answer.until use.deadline
      used := pass.used ++ [use] }
  | data =>
    match data.address kind with
    | none => .ok pass
    | some ip =>
      match pass.answer.add (socket (toCanonical ip) port) with
      | none => .error .invalid
      | some answer => .ok { pass with
          found := true
          answer := answer.until use.deadline
          used := pass.used ++ [use] }

def scan (kind : RecordType) (port : UInt16) (received : Nat) (current : N) (answer : Answer)
    (answers : List (Record N)) : Except Failure (Pass N) :=
  (answers.filter fun record => record.name = current).foldlM (Pass.take kind port received)
    ⟨none, false, answer, []⟩

/-- The names that were visited, the first of which was asked for. -/
structure Visited (N : Type) where
  names : List N
  bounded : names.length ≤ 9

def Visited.push (visited : Visited N) (name : N) (h : visited.names.length ≠ 9) : Visited N where
  names := visited.names ++ [name]
  bounded := List.length_append.trans_le (Nat.lt_of_le_of_ne visited.bounded h)

/-- How a walk ends, with the names that were visited, the number of queries and the records that
were used. When it fails, its caller drops the answer. -/
structure Walk (N : Type) where
  result : Except Failure Answer
  visited : Visited N
  queries : Nat
  used : List (Use N)

variable (kind : RecordType) (port : UInt16) (replies : Nat → Reply N)

/-- The walk from a name on. `count` queries came before the one for `queried`, whose reply is at
hand; it is read again for every alias that it gives. -/
def walk (count : Nat) (queried current : N) (visited : Visited N) (answer : Answer)
    (used : List (Use N)) : Walk N :=
  match replies count with
  | .nxDomain => ⟨.error .nxDomain, visited, count + 1, used⟩
  | .noRecordsFound => ⟨.ok answer, visited, count + 1, used⟩
  | .timeout => ⟨.error .timeout, visited, count + 1, used⟩
  | .failed => ⟨.error .transient, visited, count + 1, used⟩
  | .response .nxDomain _ _ => ⟨.error .nxDomain, visited, count + 1, used⟩
  | .response .other _ _ => ⟨.error .transient, visited, count + 1, used⟩
  | .response .noError received answers =>
    match scan kind port received current answer answers with
    | .error failure => ⟨.error failure, visited, count + 1, used⟩
    | .ok pass =>
      match pass.cname with
      | some name =>
        if hend : pass.found = true ∨ visited.names.length = 9 ∨ name ∈ visited.names then
          ⟨.error .invalid, visited, count + 1, used ++ pass.used⟩
        else
          walk count queried name (visited.push name fun h => hend (.inr (.inl h))) pass.answer
            (used ++ pass.used)
      | none =>
        if pass.found = true ∨ current = queried then
          ⟨.ok pass.answer, visited, count + 1, used ++ pass.used⟩
        else walk (count + 1) current current visited pass.answer (used ++ pass.used)
-- an alias makes the list of names longer, and another query is made only after an alias
termination_by 2 * (9 - visited.names.length) + if current = queried then 0 else 1
decreasing_by
  · have hlength : (visited.push name fun h => hend (.inr (.inl h))).names.length =
        visited.names.length + 1 := List.length_append
    have hbounded := visited.bounded
    have hne : visited.names.length ≠ 9 := fun h => hend (.inr (.inl h))
    rw [hlength]
    split <;> split <;> omega
  · next hend =>
    rw [if_pos trivial, if_neg fun h => hend (.inr h)]
    omega

def family (name : N) (answer : Answer) : Walk N :=
  walk kind port replies 0 name name ⟨[name], Nat.le_of_ble_eq_true rfl⟩ answer []

end

section

variable {kind : RecordType} {port : UInt16} {replies : Nat → Reply N}

def Use.Gives (kind : RecordType) (port : UInt16) (use : Use N) (address : SocketAddress) : Prop :=
  ∃ ip, use.record.data.address kind = some ip ∧ address = socket (toCanonical ip) port

/-- What an answer owes to some records. -/
structure Owed (kind : RecordType) (port : UInt16) (start answer : Answer) (used : List (Use N)) :
    Prop where
  origin : ∀ address ∈ answer.addresses, address ∈ start.addresses ∨
    ∃ use ∈ used, use.Gives kind port address
  fresh_le : answer.fresh ≤ start.fresh
  fresh : ∀ use ∈ used, answer.fresh ≤ use.deadline

theorem Owed.refl (answer : Answer) : Owed kind port answer answer ([] : List (Use N)) :=
  ⟨fun _ h => .inl h, le_rfl, by simp⟩

variable {answer start : Answer}

theorem Owed.trans {middle : Answer} {used more : List (Use N)}
    (h : Owed kind port start middle used) (h' : Owed kind port middle answer more) :
    Owed kind port start answer (used ++ more) where
  origin address had := by
    rcases h'.origin address had with hmem | ⟨use, huse, hgives⟩
    · rcases h.origin address hmem with hmem | ⟨use, huse, hgives⟩
      · exact .inl hmem
      · exact .inr ⟨use, List.mem_append_left _ huse, hgives⟩
    · exact .inr ⟨use, List.mem_append_right _ huse, hgives⟩
  fresh_le := h'.fresh_le.trans h.fresh_le
  fresh use huse := by
    rcases List.mem_append.mp huse with huse | huse
    · exact h'.fresh_le.trans (h.fresh use huse)
    · exact h'.fresh use huse

theorem Owed.until (answer : Answer) (use : Use N) :
    Owed kind port answer (answer.until use.deadline) [use] where
  origin _ h := .inl h
  fresh_le := min_le_left _ _
  fresh other ho := by
    obtain rfl := List.mem_singleton.mp ho
    exact min_le_right _ _

theorem Answer.add_eq_some {answer' : Answer} {address : SocketAddress}
    (h : answer.add address = some answer') :
    (∀ o ∈ answer'.addresses, o ∈ answer.addresses ∨ o = address) ∧
      answer'.fresh = answer.fresh := by
  unfold add at h
  split at h
  · obtain rfl := Option.some.inj h
    exact ⟨fun _ ho => .inl ho, rfl⟩
  split at h
  · simp at h
  · obtain rfl := Option.some.inj h
    refine ⟨fun o ho => ?_, rfl⟩
    exact (List.mem_append.mp ho).imp_right List.mem_singleton.mp

/-- A record that gives an address. -/
theorem Owed.add {answer' : Answer} {use : Use N} {ip : IpAddr}
    (hip : use.record.data.address kind = some ip)
    (h : answer.add (socket (toCanonical ip) port) = some answer') :
    Owed kind port answer (answer'.until use.deadline) [use] where
  origin address had := by
    rcases (Answer.add_eq_some h).1 address had with hmem | rfl
    · exact .inl hmem
    · exact .inr ⟨use, List.mem_singleton_self use, ip, hip, rfl⟩
  fresh_le := (min_le_left _ _).trans_eq (Answer.add_eq_some h).2
  fresh other ho := by
    obtain rfl := List.mem_singleton.mp ho
    exact min_le_right _ _

structure Passed (kind : RecordType) (port : UInt16) (received : Nat) (start : Answer)
    (records : List (Record N)) (pass : Pass N) : Prop where
  used : ∀ use ∈ pass.used, use.received = received ∧ use.record ∈ records
  cname : ∀ name ∈ pass.cname, ∃ use ∈ pass.used, use.record.data = .cname name
  owed : Owed kind port start pass.answer pass.used

theorem Passed.use {received : Nat} {records : List (Record N)}
    {pass pass' : Pass N} (h : Passed kind port received start records pass) {record : Record N}
    (hused : pass'.used = pass.used ++ [⟨record, received⟩])
    (hcname : pass'.cname = pass.cname ∨ ∃ name, pass'.cname = some name ∧
      record.data = .cname name)
    (howed : Owed kind port pass.answer pass'.answer [⟨record, received⟩]) :
    Passed kind port received start (records ++ [record]) pass' where
  used use huse := by
    rw [hused] at huse
    rcases List.mem_append.mp huse with huse | huse
    · exact ⟨(h.used use huse).1, List.mem_append_left _ (h.used use huse).2⟩
    · obtain rfl := List.mem_singleton.mp huse
      exact ⟨rfl, List.mem_append_right _ (List.mem_singleton_self _)⟩
  cname name hn := by
    rw [hused]
    rcases hcname with hsm | ⟨name', hn', hdata⟩
    · obtain ⟨use, huse, hdata⟩ := h.cname name (hsm ▸ hn)
      exact ⟨use, List.mem_append_left _ huse, hdata⟩
    · obtain rfl : name' = name := Option.some.inj (hn'.symm.trans hn)
      exact ⟨_, List.mem_append_right _ (List.mem_singleton_self _), hdata⟩
  owed := hused ▸ h.owed.trans howed

/-! ### Names that were visited -/

/-- There is a record that makes the second name an alias for the first. -/
def Follows (used : List (Use N)) (name other : N) : Prop :=
  ∃ use ∈ used, use.record.name = name ∧ use.record.data = .cname other

/-- The names that were visited and the records that were used, after a number of queries. -/
structure Custody (replies : Nat → Reply N) (name : N) (count : Nat) (visited : List N)
    (used : List (Use N)) : Prop where
  first : visited.head? = some name
  nodup : visited.Nodup
  chain : visited.IsChain (Follows used)
  owner : ∀ use ∈ used, use.record.name ∈ visited
  received : ∀ use ∈ used, ∃ k < count, ∃ answers,
    replies k = .response .noError use.received answers ∧ use.record ∈ answers

variable {name : N} {count : Nat} {used : List (Use N)}

/-- An alias of the last name is followed. -/
theorem Custody.push {vis : List N} {cur o : N} (h : Custody replies name count vis used)
    (hcur : vis.getLast? = some cur) (hfol : Follows used cur o) (hnew : o ∉ vis) :
    Custody replies name count (vis ++ [o]) used where
  first := by
    rw [List.head?_append, h.first]
    rfl
  nodup := by
    refine List.nodup_append.mpr ⟨h.nodup, List.nodup_singleton _, ?_⟩
    rintro a ha b hb rfl
    exact hnew (List.mem_singleton.mp hb ▸ ha)
  chain := by
    refine List.isChain_append.mpr ⟨h.chain, .singleton o, ?_⟩
    intro last hla first hf
    obtain rfl : cur = last := Option.some.inj (hcur.symm.trans hla)
    obtain rfl : o = first := Option.some.inj hf
    exact hfol
  owner use huse := List.mem_append_left _ (h.owner use huse)
  received := h.received

theorem Custody.next {vis : List N} (h : Custody replies name count vis used) :
    Custody replies name (count + 1) vis used :=
  { h with
    received := fun use huse => by
      obtain ⟨k, hk, hrpy⟩ := h.received use huse
      exact ⟨k, hk.trans (Nat.lt_succ_self _), hrpy⟩ }

/-- How a walk ends that began with a name and an answer. -/
structure Walk.Sound (kind : RecordType) (port : UInt16) (replies : Nat → Reply N) (name : N)
    (start : Answer) (walk : Walk N) : Prop where
  queries_le : walk.queries ≤ walk.visited.names.length
  custody : Custody replies name walk.queries walk.visited.names walk.used
  owed : ∀ answer, walk.result = .ok answer → Owed kind port start answer walk.used

/-- A walk that ends without an answer. -/
theorem Walk.Sound.failed {vis : Visited N} {failure : Failure} (hle : count + 1 ≤ vis.names.length)
    (hcus : Custody replies name (count + 1) vis.names used) :
    Walk.Sound kind port replies name start ⟨.error failure, vis, count + 1, used⟩ :=
  ⟨hle, hcus, by simp⟩

theorem succ_le_of_add_ite_le {p : Prop} [Decidable p] {bound : Nat}
    (h : count + (if p then 1 else 2) ≤ bound) : count + 1 ≤ bound := by
  split at h <;> omega

section

variable [DecidableEq N]

variable {received : Nat} {start : Answer}

theorem Passed.take {records : List (Record N)} {pass pass' : Pass N} {record : Record N}
    (h : Passed kind port received start records pass)
    (htk : pass.take kind port received record = .ok pass') :
    Passed kind port received start (records ++ [record]) pass' := by
  unfold Pass.take at htk
  split at htk
  · next name hdata =>
    split at htk
    · simp at htk
    · obtain rfl := Except.ok.inj htk
      exact h.use rfl (.inr ⟨name, rfl, hdata⟩) (.until _ _)
  · split at htk
    · obtain rfl := Except.ok.inj htk
      exact ⟨fun use huse => ⟨(h.used use huse).1, List.mem_append_left _ (h.used use huse).2⟩,
        h.cname, h.owed⟩
    · next ip hip =>
      split at htk
      · simp at htk
      · next answer had =>
        obtain rfl := Except.ok.inj htk
        exact h.use rfl (.inl rfl) (.add hip had)

theorem scan_spec {cur : N} {answers : List (Record N)} {pass : Pass N}
    (h : scan kind port received cur answer answers = .ok pass) :
    Passed kind port received answer (answers.filter fun record => record.name = cur) pass :=
  Fallible.foldlM_invariant (I := fun rs pass => Passed kind port received answer rs pass)
    (fun hps htk => hps.take htk) ⟨by simp, by simp, .refl answer⟩ h

/-- The records of the last name. -/
theorem Custody.pass {vis : List N} {cur : N} {answers : List (Record N)} {pass : Pass N}
    (h : Custody replies name (count + 1) vis used) (hcur : cur ∈ vis)
    (hrpy : replies count = .response .noError received answers)
    (hps : Passed kind port received start (answers.filter fun record => record.name = cur) pass) :
    Custody replies name (count + 1) vis (used ++ pass.used) where
  first := h.first
  nodup := h.nodup
  chain := h.chain.imp fun a b ⟨use, huse, hns⟩ => ⟨use, List.mem_append_left _ huse, hns⟩
  owner use huse := by
    rcases List.mem_append.mp huse with huse | huse
    · exact h.owner use huse
    · have hn := (List.mem_filter.mp (hps.used use huse).2).2
      rwa [of_decide_eq_true hn]
  received use huse := by
    rcases List.mem_append.mp huse with huse | huse
    · exact h.received use huse
    · obtain ⟨rfl, hmem⟩ := hps.used use huse
      exact ⟨count, Nat.lt_succ_self _, answers, hrpy, (List.mem_filter.mp hmem).1⟩

/-- Every query but the first comes after an alias, so there are no more queries than names. -/
theorem walk_sound (count : Nat) (queried cur : N) (vis : Visited N) (answer : Answer)
    (used : List (Use N)) (hcnt : count + (if cur = queried then 1 else 2) ≤ vis.names.length)
    (hcur : vis.names.getLast? = some cur) (hcus : Custody replies name (count + 1) vis.names used)
    (howed : Owed kind port start answer used) :
    (walk kind port replies count queried cur vis answer used).Sound kind port replies name
      start := by
  fun_induction walk kind port replies count queried cur vis answer used with
  | case1 | case3 | case4 | case5 | case6 => exact .failed (succ_le_of_add_ite_le hcnt) hcus
  | case2 => exact ⟨succ_le_of_add_ite_le hcnt, hcus, fun _ h => Except.ok.inj h ▸ howed⟩
  | case7 => exact .failed (succ_le_of_add_ite_le hcnt) hcus
  | case8 count queried cur vis answer used received answers hrpy pass hscan other
      ho hstop =>
    exact .failed (succ_le_of_add_ite_le hcnt)
      (hcus.pass (List.mem_of_getLast? hcur) hrpy (scan_spec hscan))
  | case9 count queried cur vis answer used received answers hrpy pass hscan other
      ho hgo ih =>
    have hpass := scan_spec hscan
    have hpas := hcus.pass (List.mem_of_getLast? hcur) hrpy hpass
    refine ih ?_ List.getLast?_concat ?_ (howed.trans hpass.owed)
    · have hle := succ_le_of_add_ite_le hcnt
      have hlength : (vis.push other fun h => hgo (.inr (.inl h))).names.length =
          vis.names.length + 1 := List.length_append
      split <;> omega
    · refine hpas.push hcur ?_ fun hmem => hgo (.inr (.inr hmem))
      obtain ⟨use, huse, hdata⟩ := hpass.cname other ho
      have hname := (List.mem_filter.mp (hpass.used use huse).2).2
      exact ⟨use, List.mem_append_right _ huse, of_decide_eq_true hname, hdata⟩
  | case10 count queried cur vis answer used received answers hrpy pass hscan hnone
      hdone =>
    have hpass := scan_spec hscan
    refine ⟨succ_le_of_add_ite_le hcnt,
      hcus.pass (List.mem_of_getLast? hcur) hrpy hpass, fun _ h => ?_⟩
    obtain rfl := Except.ok.inj h
    exact howed.trans hpass.owed
  | case11 count queried cur vis answer used received answers hrpy pass hscan hnone
      hgo ih =>
    have hpass := scan_spec hscan
    refine ih ?_ hcur (hcus.pass (List.mem_of_getLast? hcur) hrpy hpass).next
      (howed.trans hpass.owed)
    rw [if_neg fun h => hgo (.inr h)] at hcnt
    rw [if_pos rfl]
    omega

/-- Whatever the replies are, a walk ends after eight aliases and nine queries at most. Every
address that it adds is the canonical form of the address of a record of the family, with the
port, and the owner of that record is reached from the name by the aliases that were followed.
There are at most 64 different addresses. They are fresh no longer than each record that was
used. -/
theorem family_walk (kind : RecordType) (port : UInt16) (replies : Nat → Reply N) (name : N)
    (start : Answer) :
    (family kind port replies name start).visited.names.length ≤ 1 + 8 ∧
    (family kind port replies name start).queries ≤ 9 ∧
    (family kind port replies name start).Sound kind port replies name start ∧
    ∀ answer, (family kind port replies name start).result = .ok answer →
      answer.addresses.length ≤ 64 ∧ answer.addresses.Nodup := by
  have hsd : (family kind port replies name start).Sound kind port replies name start := by
    refine walk_sound 0 name name _ start [] ?_ rfl ⟨rfl, List.nodup_singleton _, .singleton _,
      by simp, by simp⟩ (.refl start)
    rw [if_pos rfl]
    exact le_rfl
  have hvisited := (family kind port replies name start).visited.bounded
  exact ⟨hvisited, hsd.queries_le.trans hvisited, hsd,
    fun answer _ => ⟨answer.bounded, answer.nodup⟩⟩

/-- A record of an IPv6 address may stand for an IPv4 one, which is then what the answer has. -/
theorem family_unmaps :
    ∃ (replies : Nat → Reply Unit) (start answer : Answer) (address : SocketAddress),
      (family .aaaa 443 replies () start).result = .ok answer ∧
        address ∈ answer.addresses ∧ address ∉ start.addresses ∧ address.ip.isV4 = true := by
  refine ⟨fun _ => .response .noError 0 [⟨(), 60, .aaaa (mapped #v[192, 0, 2, 1])⟩],
    ⟨[], 0, List.nodup_nil, Nat.zero_le _⟩, ⟨[.v4 #v[192, 0, 2, 1] 443], 0, List.nodup_singleton _,
      Nat.le_of_ble_eq_true rfl⟩, .v4 #v[192, 0, 2, 1] 443, ?_, List.mem_singleton_self _,
    List.not_mem_nil, rfl⟩
  rw [family, walk]
  simp [scan, Pass.take, RData.address, toCanonical_mapped, Answer.add, Answer.until, socket, pure,
    Except.pure, bind, Except.bind]

end

end

end Pingclair.Lookup
