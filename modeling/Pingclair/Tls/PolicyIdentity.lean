import Mathlib.Data.List.Perm.Subperm
import Pingclair.Lib.Fallible
import Pingclair.Lib.Runs
import Pingclair.Tls.StrictSni

/-!
# Connections across reloads of the client authentication

A request is served only at the revision of the listener's security at which its client was
admitted, and a publication keeps the revision when the new table compares equal to the one before.
A policy that uses the certificates of the system is not equal to any.
-/

namespace Pingclair.MutualTls

open ByteText AsciiCase FastCgi List

/-- Every mode asks for a certificate; some fail a handshake without one. -/
inductive VerifyMode
  | peer
  | peerFailIfNoPeerCert
  deriving DecidableEq

/-- A site's policy. `S` are the stores that a library verifies chains with. -/
structure CompiledClientAuth (S : Type) where
  verifyMode : VerifyMode
  trust : Option S
  /-- The certificates of the store, unless those of the system are among them. -/
  trustRoots : Option (List Bytes)
  pinnedLeaves : List Bytes

variable {S : Type}

def CompiledClientAuth.samePolicy (self other : CompiledClientAuth S) : Bool :=
  self.verifyMode == other.verifyMode && self.trust.isSome == other.trust.isSome &&
    self.trustRoots.isSome && self.trustRoots == other.trustRoots &&
    self.pinnedLeaves == other.pinnedLeaves

def sameRow : Option (CompiledClientAuth S) → Option (CompiledClientAuth S) → Bool
  | some left, some right => left.samePolicy right
  | none, none => true
  | some _, none | none, some _ => false

def ClientAuthTable.samePolicy (self other : ClientAuthTable (CompiledClientAuth S)) : Bool :=
  self.enforcing == other.enforcing && self.exact.entries.length == other.exact.entries.length &&
    self.exact.entries.all (fun entry =>
      (other.exact.lookup entry.1).any (sameRow entry.2)) &&
    self.wildcards.length == other.wildcards.length &&
    self.wildcards.all (fun row =>
      (other.wildcards.find? fun candidate => candidate.1 = row.1).any fun found =>
        sameRow row.2 found.2) &&
    sameRow self.fallback other.fallback

/-- A connection: the name and the snapshot of its handshake, the publication that this was of, and
the identity that was kept when the handshake was complete. -/
structure Connection (S : Type) where
  serverName : Bytes
  security : ListenerSecuritySnapshot (CompiledClientAuth S)
  publication : Nat
  identity : Option DownstreamTlsIdentity

structure Listener (S : Type) where
  current : ListenerGeneration (CompiledClientAuth S)
  publications : Nat
  connections : List (Connection S)

namespace Listener

def new (servers : List (Site (CompiledClientAuth S))) : Listener S :=
  ⟨⟨⟨prepare servers, 0⟩, .empty⟩, 0, []⟩

/-- The revision is a 64-bit number. -/
def publish (listener : Listener S) (clientAuth : ClientAuthTable (CompiledClientAuth S))
    (routes : RouteTable (CompiledClientAuth S)) : Listener S :=
  let current := listener.current.security
  let revision :=
    if current.clientAuth.samePolicy clientAuth then current.revision
    else (current.revision + 1) % 2 ^ 64
  { listener with
    current := ⟨⟨clientAuth, revision⟩, routes⟩
    publications := listener.publications + 1 }

def replaceRoutes (listener : Listener S)
    (update : RouteTable (CompiledClientAuth S) → RouteTable (CompiledClientAuth S)) : Listener S :=
  { listener with
    current := { listener.current with routes := update listener.current.routes } }

/-- A client says hello: the connection gets the policy of the snapshot for the name, and its
revision. -/
def hello (listener : Listener S) (serverName : Bytes) : Listener S :=
  { listener with
    connections := listener.connections ++
      [⟨serverName, listener.current.security, listener.publications, none⟩] }

def handshakeComplete (listener : Listener S) (index : Nat) : Listener S :=
  { listener with
    connections := listener.connections.modify index fun connection =>
      { connection with
        identity := if listener.current.requiresClientAuth then
            some (.new connection.serverName connection.security.revision)
          else none } }

end Listener

inductive Event (S : Type)
  | publish (servers : List (Site (CompiledClientAuth S)))
      (routes : RouteTable (CompiledClientAuth S))
  | replaceRoutes
      (update : RouteTable (CompiledClientAuth S) → RouteTable (CompiledClientAuth S))
  | hello (serverName : Bytes)
  | handshakeComplete (index : Nat)

def Event.isCall : Event S → Bool
  | .publish _ _ | .replaceRoutes _ => true
  | .hello _ | .handshakeComplete _ => false

def Listener.step (listener : Listener S) : Event S → Listener S
  | .publish servers routes => listener.publish (prepare servers) routes
  | .replaceRoutes update => listener.replaceRoutes update
  | .hello serverName => listener.hello serverName
  | .handshakeComplete index => listener.handshakeComplete index

def reloads (servers : List (Site (CompiledClientAuth S))) : Machine (Listener S) (Event S) :=
  ⟨.new servers, Listener.step⟩

section

variable {α β : Type} {R : α → α → Prop}

theorem rel_trans (htrans : ∀ a b c, R a b → R b c → R a c) {a b c : Option α}
    (hab : Option.Rel R a b) (hbc : Option.Rel R b c) : Option.Rel R a c := by
  cases hab with
  | none => exact hbc
  | some h =>
    cases hbc with
    | some h' => exact .some (htrans _ _ _ h h')

theorem rel_or {a a' b b' : Option α} (h : Option.Rel R a b) (h' : Option.Rel R a' b') :
    Option.Rel R (a.or a') (b.or b') := by
  cases h with
  | none => exact h'
  | some h => exact .some h

theorem rel_bind {o : Option β} {f g : β → Option α} (h : ∀ x, Option.Rel R (f x) (g x)) :
    Option.Rel R (o.bind f) (o.bind g) := by
  cases o with
  | none => exact .none
  | some x => exact h x

theorem rel_imp {R' : α → α → Prop} (himp : ∀ a b, R a b → R' a b) {a b : Option α}
    (h : Option.Rel R a b) : Option.Rel R' a b := by
  cases h with
  | none => exact .none
  | some h => exact .some (himp _ _ h)

theorem forall_mem_of_rel {p : α → Prop} (hp : ∀ a b, R a b → p a ∧ p b) {a b : Option α}
    (h : Option.Rel R a b) {x : α} (hx : x ∈ a ∨ x ∈ b) : p x := by
  cases h with
  | none => simp at hx
  | some h =>
    rcases hx with hx | hx
    · exact Option.some.inj hx ▸ (hp _ _ h).1
    · exact Option.some.inj hx ▸ (hp _ _ h).2

theorem exists_of_any {o : Option α} {p : α → Bool} (h : o.any p = true) :
    ∃ a, o = some a ∧ p a = true := by
  cases o with
  | none => simp at h
  | some a => exact ⟨a, rfl, h⟩

theorem rel_getD {a b : Option (Option α)} (h : Option.Rel (Option.Rel R) a b) :
    Option.Rel R (a.getD none) (b.getD none) := by
  cases h with
  | none => exact .none
  | some h => exact h

end

/-- Policies that ask the same of a client. -/
structure CompiledClientAuth.Same (a b : CompiledClientAuth S) : Prop where
  verifyMode : a.verifyMode = b.verifyMode
  trust : a.trust.isSome = b.trust.isSome
  trustRoots : a.trustRoots = b.trustRoots
  pinnedLeaves : a.pinnedLeaves = b.pinnedLeaves

def CompiledClientAuth.IsExplicit (policy : CompiledClientAuth S) : Prop :=
  policy.trustRoots.isSome = true

def CompiledClientAuth.Alike (a b : CompiledClientAuth S) : Prop := a.Same b ∧ a.IsExplicit

namespace CompiledClientAuth

variable {a b c : CompiledClientAuth S}

theorem Same.refl (a : CompiledClientAuth S) : a.Same a := ⟨rfl, rfl, rfl, rfl⟩

theorem Alike.trans (h : a.Alike b) (h' : b.Alike c) : a.Alike c :=
  ⟨⟨h.1.verifyMode.trans h'.1.verifyMode, h.1.trust.trans h'.1.trust,
    h.1.trustRoots.trans h'.1.trustRoots, h.1.pinnedLeaves.trans h'.1.pinnedLeaves⟩, h.2⟩

theorem Alike.isExplicit_right (h : a.Alike b) : b.IsExplicit := by
  rw [IsExplicit, ← h.1.trustRoots]
  exact h.2

theorem alike_of_samePolicy (h : a.samePolicy b = true) : a.Alike b := by
  simp only [samePolicy, Bool.and_eq_true, beq_iff_eq] at h
  obtain ⟨⟨⟨⟨hmd, htrust⟩, hexp⟩, hroots⟩, hlv⟩ := h
  exact ⟨⟨hmd, htrust, hroots, hlv⟩, hexp⟩

end CompiledClientAuth

theorem rel_of_sameRow {a b : Option (CompiledClientAuth S)} (h : sameRow a b = true) :
    Option.Rel CompiledClientAuth.Alike a b := by
  cases a with
  | none =>
    cases b with
    | none => exact .none
    | some => simp [sameRow] at h
  | some l =>
    cases b with
    | none => simp [sameRow] at h
    | some r => exact .some (CompiledClientAuth.alike_of_samePolicy h)

namespace ClientAuthTable

variable {P : Type}

def Distinct (table : ClientAuthTable P) : Prop := (table.wildcards.map Prod.fst).Nodup

theorem nodup_mergeWildcard {suf : Bytes} {pol : Option P} {rows : List (Bytes × Option P)}
    (h : (rows.map Prod.fst).Nodup) : ((mergeWildcard suf pol rows).map Prod.fst).Nodup := by
  induction rows with
  | nil => exact nodup_singleton suf
  | cons row rows ih =>
    rw [map_cons, nodup_cons] at h
    rw [mergeWildcard]
    split
    · rw [map_cons, nodup_cons]
      exact h
    · next hne =>
      rw [map_cons, nodup_cons]
      refine ⟨fun hmem => ?_, ih h.2⟩
      obtain ⟨o, ho, heq⟩ := mem_map.mp hmem
      rcases keys_mergeWildcard ho with hsuf | hold
      · exact hne (heq.symm.trans hsuf)
      · exact h.1 (heq ▸ hold)

theorem Distinct.recordName {table : ClientAuthTable P} (h : table.Distinct) (pol : Option P)
    (name : Bytes) : (table.recordName pol name).Distinct := by
  rw [ClientAuthTable.recordName]
  split
  · exact h
  · split
    · exact nodup_mergeWildcard h
    · exact h

theorem Distinct.record {table : ClientAuthTable P} (h : table.Distinct) (names : List Bytes)
    (pol : Option P) : (table.record names pol).Distinct := by
  rw [ClientAuthTable.record]
  split
  · exact h
  · exact List.foldlRecOn names _ h fun table htab name _ => htab.recordName pol name

theorem distinct_prepare (srvs : List (Site P)) : (prepare srvs).Distinct := by
  refine List.foldlRecOn srvs _ nodup_nil fun table htab site _ => ?_
  rw [prepareSite]
  split
  · exact htab.record site.domains none
  · next c _ =>
    have henf : Distinct { table with enforcing := true } := htab
    exact henf.record site.domains (some c)

/-- Every row of a table is that of another, up to what is asked of a client. -/
def Alike (a b : ClientAuthTable (CompiledClientAuth S)) : Prop :=
  ∀ key, Option.Rel (Option.Rel CompiledClientAuth.Alike) (a.row key) (b.row key)

variable {a b c : ClientAuthTable (CompiledClientAuth S)}

theorem Alike.trans (h : a.Alike b) (h' : b.Alike c) : a.Alike c := by
  intro key
  refine rel_trans (fun a b c hab hbc => ?_) (h key) (h' key)
  exact rel_trans (R := CompiledClientAuth.Alike) (fun _ _ _ h h' => h.trans h') hab hbc

theorem Alike.policyFor (h : a.Alike b) (sni : Bytes) :
    Option.Rel CompiledClientAuth.Alike (a.policyFor sni) (b.policyFor sni) := by
  by_cases hem : stripDot sni = []
  · have hfb (table : ClientAuthTable (CompiledClientAuth S)) :
        table.policyFor sni = (table.row none).getD none := by
      rw [ClientAuthTable.policyFor, if_pos hem]
      rfl
    rw [hfb, hfb]
    exact rel_getD (h none)
  · rw [policyFor_eq a hem, policyFor_eq b hem]
    exact rel_getD (rel_or (rel_or (h _) (rel_bind fun pattern => h (some pattern))) (h none))

theorem subset_of_length_eq {α : Type} {l l' : List α} (hnd : l.Nodup) (hsub : l ⊆ l')
    (hlen : l.length = l'.length) : l' ⊆ l :=
  ((hnd.subperm hsub).perm_of_length_le hlen.ge).symm.subset

theorem samePolicy_wildcards (hdis : a.Distinct) (hlen : a.wildcards.length = b.wildcards.length)
    (hrows : ∀ row ∈ a.wildcards, (b.wildcards.find? fun cand => cand.1 = row.1).any
      (fun found => sameRow row.2 found.2) = true) (suf : Bytes) :
    Option.Rel (Option.Rel CompiledClientAuth.Alike)
      ((a.wildcards.find? fun row => row.1 = suf).map Prod.snd)
      ((b.wildcards.find? fun row => row.1 = suf).map Prod.snd) := by
  cases hfi : a.wildcards.find? fun row => row.1 = suf with
  | some row =>
    have hsuf := List.find?_some hfi
    obtain ⟨found, hfd, hsm⟩ := exists_of_any (hrows row (mem_of_find?_eq_some hfi))
    rw [of_decide_eq_true hsuf] at hfd
    rw [hfd]
    exact .some (rel_of_sameRow hsm)
  | none =>
    have hsub : a.wildcards.map Prod.fst ⊆ b.wildcards.map Prod.fst := by
      intro name hn
      obtain ⟨row, hrow, rfl⟩ := mem_map.mp hn
      obtain ⟨found, hfd, -⟩ := exists_of_any (hrows row hrow)
      have hsuf := List.find?_some hfd
      exact mem_map.mpr ⟨found, mem_of_find?_eq_some hfd, of_decide_eq_true hsuf⟩
    have hbk := subset_of_length_eq hdis hsub (by rwa [length_map, length_map])
    have hnone : b.wildcards.find? (fun row => row.1 = suf) = none := by
      rw [List.find?_eq_none] at hfi ⊢
      intro row hrow hsuf
      obtain ⟨o, ho, heq⟩ := mem_map.mp (hbk (mem_map_of_mem hrow))
      exact hfi o ho (decide_eq_true (heq.trans (of_decide_eq_true hsuf)))
    rw [hnone]
    exact .none

theorem samePolicy_exact (hlen : a.exact.entries.length = b.exact.entries.length)
    (hrows : ∀ entry ∈ a.exact.entries, (b.exact.lookup entry.1).any (sameRow entry.2) = true)
    (key : Bytes) :
    Option.Rel (Option.Rel CompiledClientAuth.Alike) (a.exact.lookup key) (b.exact.lookup key) := by
  cases hlk : a.exact.lookup key with
  | some p =>
    obtain ⟨found, hfd, hsm⟩ := exists_of_any (hrows _ (AList.mem_lookup_iff.mp hlk))
    rw [hfd]
    exact .some (rel_of_sameRow hsm)
  | none =>
    have hsub : a.exact.keys ⊆ b.exact.keys := by
      intro name hn
      obtain ⟨entry, he, rfl⟩ := mem_map.mp hn
      obtain ⟨found, hfd, -⟩ := exists_of_any (hrows entry he)
      exact AList.lookup_isSome.mp (Option.isSome_of_mem hfd)
    have hkeys (table : ClientAuthTable (CompiledClientAuth S)) :
        table.exact.keys.length = table.exact.entries.length := length_map _
    have hbk := subset_of_length_eq a.exact.keys_nodup hsub (by rw [hkeys, hkeys, hlen])
    have hnone : b.exact.lookup key = none := by
      rw [AList.lookup_eq_none] at hlk ⊢
      exact fun hmem => hlk (hbk hmem)
    rw [hnone]
    exact .none

/-- Tables that compare equal have the same rows, whatever the order of their wildcards. -/
theorem samePolicy_rows (hdis : a.Distinct) (h : a.samePolicy b = true) : a.Alike b := by
  simp only [samePolicy, Bool.and_eq_true, beq_iff_eq, all_eq_true] at h
  obtain ⟨⟨⟨⟨⟨-, hc⟩, hex⟩, hwcn⟩, hwl⟩, hfb⟩ := h
  intro key
  cases key with
  | none => exact .some (rel_of_sameRow hfb)
  | some key =>
    rw [row, row]
    cases wildcardSuffix key with
    | some s => exact samePolicy_wildcards hdis hwcn hwl s
    | none => exact samePolicy_exact hc hex key

end ClientAuthTable

/-! ### Runs -/

namespace Listener

/-- The table in force at the handshake of a connection gives the answers of the current one, and
none of them rests on the certificates of the system unless there was no publication since. -/
structure Alike (listener : Listener S) (connection : Connection S) : Prop where
  answers : ∀ sni, Option.Rel CompiledClientAuth.Same (connection.security.clientAuth.policyFor sni)
    (listener.current.security.clientAuth.policyFor sni)
  explicit : connection.publication = listener.publications ∨ ∀ sni policy,
    policy ∈ connection.security.clientAuth.policyFor sni ∨
      policy ∈ listener.current.security.clientAuth.policyFor sni → policy.IsExplicit

/-- What is known of a connection, from the revision it has. -/
structure Recorded (listener : Listener S) (connection : Connection S) : Prop where
  revision_le : connection.security.revision ≤ listener.current.security.revision
  identity : ∀ identity ∈ connection.identity,
    identity.securityRevision = connection.security.revision
  alike : connection.security.revision = listener.current.security.revision →
    connection.publication = listener.publications ∧
        connection.security = listener.current.security ∨
      connection.security.clientAuth.Alike listener.current.security.clientAuth

structure Kept (listener : Listener S) : Prop where
  revision_le : listener.current.security.revision ≤ listener.publications
  distinct : listener.current.security.clientAuth.Distinct
  recorded : ∀ connection ∈ listener.connections, listener.Recorded connection

variable {listener : Listener S}

theorem Recorded.alike_of_eq {connection : Connection S} (h : listener.Recorded connection)
    (heq : connection.security.revision = listener.current.security.revision) :
    listener.Alike connection := by
  rcases h.alike heq with ⟨hpublication, hsec⟩ | hal
  · refine ⟨fun sni => ?_, .inl hpublication⟩
    rw [hsec]
    cases listener.current.security.clientAuth.policyFor sni with
    | none => exact .none
    | some p => exact .some (.refl p)
  · refine ⟨fun sni => rel_imp (fun _ _ h => h.1) (hal.policyFor sni), .inr ?_⟩
    intro sni p hpol
    exact forall_mem_of_rel (fun _ _ h => ⟨h.2, h.isExplicit_right⟩) (hal.policyFor sni) hpol

theorem kept_new (srvs : List (Site (CompiledClientAuth S))) : (new srvs).Kept where
  revision_le := le_rfl
  distinct := ClientAuthTable.distinct_prepare srvs
  recorded := by simp [new]

/-- A publication has the revision of the one before if their tables compare equal, or else the
next. -/
theorem Kept.publish (h : listener.Kept) (hrm : listener.publications + 1 < 2 ^ 64)
    (srvs : List (Site (CompiledClientAuth S))) (routes : RouteTable (CompiledClientAuth S)) :
    (listener.publish (prepare srvs) routes).Kept := by
  have hle := h.revision_le
  rw [Listener.publish]
  split
  · next hsm =>
    have hal := ClientAuthTable.samePolicy_rows h.distinct hsm
    refine ⟨hle.trans (Nat.le_succ _), ClientAuthTable.distinct_prepare srvs, fun c hconn => ?_⟩
    obtain ⟨hrev, hidt, hold⟩ := h.recorded c hconn
    refine ⟨hrev, hidt, fun heq => .inr ?_⟩
    rcases hold heq with ⟨-, hsec⟩ | hold
    · rw [hsec]
      exact hal
    · exact hold.trans hal
  · have hnx : (listener.current.security.revision + 1) % 2 ^ 64 =
        listener.current.security.revision + 1 := Nat.mod_eq_of_lt (by omega)
    rw [hnx]
    refine ⟨Nat.succ_le_succ hle, ClientAuthTable.distinct_prepare srvs, fun c hconn => ?_⟩
    obtain ⟨hrev, hidt, -⟩ := h.recorded c hconn
    exact ⟨hrev.trans (Nat.le_succ _), hidt, fun heq =>
      absurd heq (Nat.lt_succ_of_le hrev).ne⟩

theorem Kept.hello (h : listener.Kept) (sni : Bytes) : (listener.hello sni).Kept := by
  refine ⟨h.revision_le, h.distinct, fun conn hconn => ?_⟩
  rcases mem_append.mp hconn with hconn | hconn
  · exact { h.recorded conn hconn with }
  · obtain rfl := mem_singleton.mp hconn
    exact ⟨le_rfl, by simp, fun _ => .inl ⟨rfl, rfl⟩⟩

theorem Kept.handshakeComplete (h : listener.Kept) (idx : Nat) :
    (listener.handshakeComplete idx).Kept := by
  refine ⟨h.revision_le, h.distinct, fun c hconn => ?_⟩
  obtain ⟨i, hi⟩ := mem_iff_getElem?.mp hconn
  obtain ⟨old, hold, rfl⟩ := exists_of_getElem?_modify hi
  have hrec := h.recorded old (mem_of_getElem? hold)
  split
  · refine { hrec with identity := fun identity hidt => ?_ }
    split at hidt
    · exact Option.some.inj hidt ▸ rfl
    · simp at hidt
  · exact { hrec with }

theorem publications_le_step (listener : Listener S) (ev : Event S) :
    listener.publications ≤ (listener.step ev).publications := by
  cases ev with
  | publish => exact Nat.le_succ _
  | replaceRoutes | hello | handshakeComplete => exact le_rfl

theorem Kept.step (h : listener.Kept) (ev : Event S)
    (hrm : (listener.step ev).publications < 2 ^ 64) : (listener.step ev).Kept := by
  cases ev with
  | publish ss routes => exact h.publish hrm ss routes
  | replaceRoutes u => exact { h with recorded := fun c hc => { h.recorded c hc with } }
  | hello s => exact h.hello s
  | handshakeComplete i => exact h.handshakeComplete i

theorem publications_foldl_le (evs : List (Event S)) (listener : Listener S) :
    (evs.foldl Listener.step listener).publications ≤
      listener.publications + evs.countP Event.isCall := by
  induction evs generalizing listener with
  | nil => exact le_rfl
  | cons e evs ih =>
    refine (ih _).trans ?_
    have hst : (listener.step e).publications ≤
        listener.publications + if e.isCall then 1 else 0 := by
      cases e <;> simp [step, publish, replaceRoutes, hello, handshakeComplete, Event.isCall]
    rw [countP_cons]
    omega

end Listener

/-- A request on a connection is admitted under a generation, over HTTP/1, HTTP/2 or HTTP/3. -/
def Connection.IsAdmitted (connection : Connection S)
    (generation : ListenerGeneration (CompiledClientAuth S)) (host : Bytes) : Prop :=
  strictSniHostRejection generation (some connection.identity) host = none ∨
    h3Rejection generation connection.identity host = none

theorem Connection.IsAdmitted.identity {conn : Connection S}
    {gen : ListenerGeneration (CompiledClientAuth S)} {host : Bytes}
    (h : conn.IsAdmitted gen host) (hreqs : gen.requiresClientAuth = true) :
    ∃ identity ∈ conn.identity, identity.securityRevision = gen.security.revision := by
  cases hidt : conn.identity with
  | none =>
    simp [IsAdmitted, strictSniHostRejection, h3Rejection, hidt, hreqs] at h
  | some identity =>
    refine ⟨identity, rfl, ?_⟩
    by_contra hne
    simp [IsAdmitted, strictSniHostRejection, h3Rejection, hidt, hreqs, hne] at h

/-- In every run with fewer than `2 ^ 64` calls that change the generation: a request that is
admitted under a generation which demands certificates is on a connection whose handshake was under
rules that give the same answers. -/
theorem admitted_alike (servers : List (Site (CompiledClientAuth S))) (events : List (Event S))
    (hcalls : events.countP Event.isCall < 2 ^ 64) :
    ∀ connection ∈ ((reloads servers).run events).connections, ∀ host,
      ((reloads servers).run events).current.requiresClientAuth = true →
      connection.IsAdmitted ((reloads servers).run events).current host →
        ((reloads servers).run events).Alike connection := by
  have hrm : ((reloads servers).run events).publications < 2 ^ 64 := by
    refine (Listener.publications_foldl_le events _).trans_lt ?_
    rw [show (reloads servers).start.publications = 0 from rfl, Nat.zero_add]
    exact hcalls
  have hr : (reloads servers).Reachable (fun _ _ => True) ((reloads servers).run events) :=
    Machine.reachable_run (Machine.allows_of_forall (fun _ _ => trivial) _ _)
  have hkp := hr.invariant (I := fun l => l.publications < 2 ^ 64 → l.Kept)
    (fun _ => Listener.kept_new servers) fun ls e hkp _ hrm =>
      (hkp ((ls.publications_le_step e).trans_lt hrm)).step e hrm
  intro connection hconn host hreqs hadm
  have hrec := (hkp hrm).recorded connection hconn
  obtain ⟨identity, hidt, hrev⟩ := hadm.identity hreqs
  exact hrec.alike_of_eq ((hrec.identity identity hidt).symm.trans hrev)

def pinnedSites (names : List Bytes) : List (Site (CompiledClientAuth Unit)) :=
  [⟨none, names, some ⟨.peerFailIfNoPeerCert, none, some [], [[1], [2]]⟩⟩]

/-- A client connects, and then a reload changes the order of the site's names. -/
def reorderedNames : List (Event Unit) :=
  [.hello (ascii "a.example"), .handshakeComplete 0,
    .publish (pinnedSites [ascii "b.example", ascii "a.example"]) .empty]

theorem admitted_alike_reordered :
    ∃ connection ∈ ((reloads (pinnedSites [ascii "a.example", ascii "b.example"])).run
        reorderedNames).connections,
      connection.IsAdmitted ((reloads (pinnedSites [ascii "a.example", ascii "b.example"])).run
        reorderedNames).current (ascii "a.example") ∧
      ((reloads (pinnedSites [ascii "a.example", ascii "b.example"])).run reorderedNames).Alike
        connection := by
  refine ⟨⟨ascii "a.example", ⟨prepare (pinnedSites [ascii "a.example", ascii "b.example"]), 0⟩, 0,
    some (.new (ascii "a.example") 0)⟩, mem_singleton_self _, .inl (by decide), ?_⟩
  exact admitted_alike _ _ (by decide) _ (mem_singleton_self _) (ascii "a.example")
    (by decide) (.inl (by decide))

end Pingclair.MutualTls
