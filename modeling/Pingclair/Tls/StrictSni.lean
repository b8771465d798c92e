import Pingclair.Tls.ClientAuth

/-!
# Server names and requested hosts under mutual TLS

A client is admitted by the server name of its handshake and routed by the host of its request. On
listeners where some site demands certificates the two must be the same. But a name with a port,
with brackets or with a trailing dot is routed without them and recorded with them.
-/

namespace Pingclair.MutualTls

open ByteText AsciiCase FastCgi List

variable {P : Type}

/-- The client authentication table and the revision that connections record. -/
structure ListenerSecuritySnapshot (P : Type) where
  clientAuth : ClientAuthTable P
  revision : Nat

structure ListenerGeneration (P : Type) where
  security : ListenerSecuritySnapshot P
  routes : RouteTable P

namespace ListenerGeneration

def requiresClientAuth (generation : ListenerGeneration P) : Bool :=
  !generation.security.clientAuth.isEmpty

end ListenerGeneration

structure DownstreamTlsIdentity where
  serverName : Bytes
  securityRevision : Nat

namespace DownstreamTlsIdentity

def new (serverName : Bytes) (securityRevision : Nat) : DownstreamTlsIdentity :=
  ⟨fold serverName, securityRevision⟩

def mayRequestHost (identity : DownstreamTlsIdentity) (hostname : Bytes) : Bool :=
  if identity.serverName.isEmpty then false
  else
    hostname.length == identity.serverName.length &&
      (hostname.zip identity.serverName).all fun pair => lower pair.1 == pair.2

theorem all_zip_lower {s t : Bytes} (h : s.length = t.length) :
    ((s.zip t).all fun pair => lower pair.1 == pair.2) = true ↔ fold s = t := by
  induction s generalizing t with
  | nil => simp_all [eq_comm]
  | cons b s ih =>
    cases t with
    | nil => simp at h
    | cons c t =>
      have hlen : s.length = t.length := by simpa using h
      simp [ih hlen]

theorem mayRequestHost_iff {serverName hostname : Bytes} {revision : Nat} :
    (new serverName revision).mayRequestHost hostname = true ↔
      fold serverName ≠ [] ∧ fold hostname = fold serverName := by
  by_cases hem : fold serverName = []
  · simp [mayRequestHost, new, hem]
  · simp only [mayRequestHost, new, List.isEmpty_iff, hem, if_false, Bool.and_eq_true,
      beq_iff_eq, ne_eq, not_false_eq_true, true_and]
    constructor
    · rintro ⟨hlen, ha⟩
      exact (all_zip_lower hlen).mp ha
    · intro heq
      have hlen : hostname.length = (fold serverName).length := by rw [← heq, length_fold]
      exact ⟨hlen, (all_zip_lower hlen).mpr heq⟩

end DownstreamTlsIdentity

/-- Why a request on a mutual TLS listener may not name its host, over HTTP/1 and HTTP/2. A session
has a handshake when it came over TLS, and the handshake an identity when one was recorded. -/
def strictSniHostRejection (generation : ListenerGeneration P)
    (ssl : Option (Option DownstreamTlsIdentity)) (hostname : Bytes) : Option Bytes :=
  if !generation.requiresClientAuth then none
  else
    match ssl with
    | none => none
    | some (some identity) =>
      if identity.securityRevision == generation.security.revision &&
          identity.mayRequestHost hostname then none
      else if identity.securityRevision != generation.security.revision then
        some (ascii "TLS client-auth policy changed; reconnect")
      else some (ascii "TLS server name and Host header name differ")
    | some none => some (ascii "TLS handshake recorded no server name")

def h3Rejection (generation : ListenerGeneration P) (tlsIdentity : Option DownstreamTlsIdentity)
    (authority : Bytes) : Option Bytes :=
  if generation.requiresClientAuth then
    match tlsIdentity with
    | some identity =>
      if identity.securityRevision != generation.security.revision then
        some (ascii "TLS client-auth policy changed; reconnect")
      else if !identity.mayRequestHost (authorityHost authority) then
        some (ascii "TLS server name and :authority values differ")
      else none
    | none => some (ascii "TLS handshake recorded no server name")
  else none

inductive Transport
  | tcp
  | quic
  deriving DecidableEq

namespace Transport

def offered : Transport → Bytes → Bytes
  | .tcp, serverName => fold (stripDot serverName)
  | .quic, serverName => serverName

def installed (t : Transport) (security : ListenerSecuritySnapshot P) (serverName : Bytes) :
    Option P := security.clientAuth.policyFor (t.offered serverName)

def asked : Transport → Bytes → Bytes
  | .tcp, authority => requestHost authority
  | .quic, authority => authorityHost authority

/-- Why a request is rejected whose handshake recorded a name at a revision. -/
def rejection (t : Transport) (generation : ListenerGeneration P) (serverName : Bytes)
    (revision : Nat) (authority : Bytes) : Option Bytes :=
  match t with
  | .tcp => strictSniHostRejection generation (some (some (.new serverName revision)))
      (requestHost authority)
  | .quic => h3Rejection generation (some (.new serverName revision)) authority

/-- Whether the name of a handshake and the host of a request are taken for the same. -/
def MayAsk (t : Transport) (serverName authority : Bytes) : Prop :=
  fold serverName ≠ [] ∧ fold (t.asked authority) = fold serverName

theorem rejection_eq_none_iff {t : Transport} {generation : ListenerGeneration P}
    {serverName authority : Bytes} {revision : Nat} (henf : generation.requiresClientAuth = true) :
    t.rejection generation serverName revision authority = none ↔
      revision = generation.security.revision ∧ t.MayAsk serverName authority := by
  have hak := @DownstreamTlsIdentity.mayRequestHost_iff serverName (t.asked authority) revision
  have hrev : (DownstreamTlsIdentity.new serverName revision).securityRevision = revision :=
    rfl
  rw [MayAsk, ← hak]
  cases t with
  | tcp =>
    simp only [rejection, strictSniHostRejection, henf, asked, hrev]
    by_cases hsm : revision = generation.security.revision
    · simp [hsm]
    · simp [hsm]
  | quic =>
    simp only [rejection, h3Rejection, henf, asked, hrev]
    by_cases hsm : revision = generation.security.revision
    · simp [hsm]
    · simp [hsm]

/-- Both transports refuse the same requests, but those whose host ends in a dot and is, with the
dot or without it, the server name. -/
theorem rejection_alike_iff (generation : ListenerGeneration P) (serverName authority : Bytes)
    (revision : Nat) :
    ((quic.rejection generation serverName revision authority).isSome ↔
        (tcp.rejection generation serverName revision authority).isSome) ↔
      generation.requiresClientAuth = false ∨ revision ≠ generation.security.revision ∨
      serverName = [] ∨ stripDot (authorityHost authority) = authorityHost authority ∨
      fold (authorityHost authority) ≠ fold serverName ∧
        fold (stripDot (authorityHost authority)) ≠ fold serverName := by
  cases henf : generation.requiresClientAuth with
  | false => simp [rejection, h3Rejection, strictSniHostRejection, henf]
  | true =>
    have hsm : fold (stripDot (authorityHost authority)) = fold (authorityHost authority) ↔
        stripDot (authorityHost authority) = authorityHost authority := by
      refine ⟨fun h => ?_, fun h => by rw [h]⟩
      rcases stripDot_cases (authorityHost authority) with hd | hd
      · have hlen := congrArg List.length h
        rw [hd, stripDot_concat] at hlen
        simp at hlen
      · exact hd
    have hem : fold serverName = [] ↔ serverName = [] := map_eq_nil_iff
    simp only [Option.isSome_iff_ne_none, ne_eq, rejection_eq_none_iff henf, MayAsk, asked,
      requestHost, canonicalHost, fold_fold]
    grind

end Transport

/-- A generation that publishes some sites, its map iterated over in any order. -/
structure Publishes (generation : ListenerGeneration P) (sites : List (Site P)) : Prop where
  clientAuth : generation.security.clientAuth = prepare sites
  hosts : generation.routes.hosts.entries.Perm (RouteTable.prepareRoutes sites).hosts.entries
  default : generation.routes.default = (RouteTable.prepareRoutes sites).default

/-- When a request is let through to a site that demands certificates, its handshake was held to
that site's policy. -/
def Guarded (t : Transport) (generation : ListenerGeneration P) (serverName authority : Bytes) :
    Prop :=
  generation.requiresClientAuth = true →
    t.rejection generation serverName generation.security.revision authority = none →
      ∀ site policy, generation.routes.get (requestHost authority) = some site →
        site.clientAuth = some policy → t.installed generation.security serverName = some policy

/-- A name covers a host as routing reads it. -/
def Routed (name host : Bytes) : Prop :=
  routeKey name = some host ∨ ∃ pattern, wildcardOf host = some pattern ∧
    routeKey name = some pattern

/-- A name covers a server name as it is spelled. -/
def Spelled (name serverName : Bytes) : Prop :=
  serverName ≠ [] ∧ (authKey name = some serverName ∨
    ∃ pattern, wildcardOf serverName = some pattern ∧ authKey name = some pattern)

def routedHost (authority : Bytes) : Bytes := canonicalHost (requestHost authority)

def Transport.lookedUp (t : Transport) (serverName : Bytes) : Bytes :=
  canonicalHost (t.offered serverName)

/-- The two tables read a name alike for a request. -/
def Alike (t : Transport) (serverName authority name : Bytes) : Prop :=
  Routed name (routedHost authority) ↔ Spelled name (t.lookedUp serverName)

/-! ### What the two lookups have to do with each other -/

/-- The two names are the same but for a trailing dot, and neither is a text in brackets. -/
structure Linked (serverName host : Bytes) : Prop where
  dots : serverName = stripDot host ∨ host = stripDot serverName
  open_end : serverName.head? = some 0x5B → 0x5D ∉ serverName

theorem routedHost_eq (authority : Bytes) :
    routedHost authority = stripDot (requestHost authority) := by
  rw [routedHost, canonicalHost, fold_stripDot, requestHost, fold_canonicalHost]

variable {serverName authority : Bytes}

/-- Over TCP the trailing dot is stripped before the name is handed on, and again. -/
theorem lookedUp_tcp (h : Transport.tcp.MayAsk serverName authority) :
    Transport.tcp.lookedUp serverName = stripDot (stripDot (requestHost authority)) := by
  have hn : fold serverName = requestHost authority := by
    rw [← h.2, Transport.asked, requestHost, fold_canonicalHost]
  rw [Transport.lookedUp, Transport.offered, canonicalHost, fold_stripDot, fold_fold,
    fold_stripDot, hn]

/-- Over QUIC the name is compared with the host before its trailing dot is stripped. -/
theorem lookedUp_quic (h : Transport.quic.MayAsk serverName authority) :
    Transport.quic.lookedUp serverName = requestHost authority := by
  rw [Transport.lookedUp, Transport.offered, canonicalHost, fold_stripDot, ← h.2, ← fold_stripDot]
  rfl

variable {t : Transport}

theorem linked_of_mayAsk (h : t.MayAsk serverName authority) :
    Linked (t.lookedUp serverName) (routedHost authority) := by
  have hop : ∀ name, name <+: requestHost authority → name.head? = some 0x5B → 0x5D ∉ name :=
    fun name hn hhd hmem =>
      bracketed_requestHost (head?_of_isPrefix hn hhd) (hn.subset hmem)
  rw [routedHost_eq]
  cases t with
  | tcp =>
    rw [lookedUp_tcp h]
    exact ⟨.inl rfl, hop _ ((stripDot_isPrefix _).trans (stripDot_isPrefix _))⟩
  | quic =>
    rw [lookedUp_quic h]
    exact ⟨.inr rfl, hop _ prefix_rfl⟩

theorem wildcardOf_star : wildcardOf [star] = none := by decide

variable {name pattern : Bytes}

theorem starDot_of_wildcardOf (h : wildcardOf name = some pattern) : starDot <+: pattern := by
  obtain ⟨l, s, -, -, -, rfl⟩ := wildcardOf_eq_some_iff.mp h
  exact prefix_append _ _

theorem eq_of_wildcardOf_starDot (hn : starDot <+: name)
    (h : wildcardOf name = some pattern) : pattern = name := by
  obtain ⟨s, rfl⟩ := hn
  exact (Option.some.inj h).symm

theorem starDot_of_wildcard (h : name = [star] ∨ starDot <+: name)
    (hwl : wildcardOf name = some pattern) : starDot <+: name := by
  rcases h with rfl | h
  · rw [wildcardOf_star] at hwl
    simp at hwl
  · exact h

theorem Linked.wildcard_serverName {host : Bytes} (h : Linked serverName host)
    (hh : host = [star] ∨ starDot <+: host) (hwl : wildcardOf serverName = some pattern) :
    starDot <+: serverName := by
  rcases h.dots with heq | heq
  · refine starDot_of_wildcard ?_ hwl
    rcases hh with rfl | hh
    · exact .inl (heq.trans (by decide))
    · rw [heq]
      exact stripDot_of_starDot hh
  · rcases stripDot_cases serverName with hd | hsm
    · rw [hd, ← heq]
      rcases hh with rfl | hh
      · exact prefix_rfl
      · exact hh.trans (prefix_append _ _)
    · rw [hsm] at heq
      rw [heq] at hh
      exact starDot_of_wildcard hh hwl

theorem Linked.wildcard_host {host : Bytes} (h : Linked serverName host)
    (hn : starDot <+: serverName) (hwl : wildcardOf host = some pattern) : starDot <+: host := by
  rcases h.dots with heq | heq
  · rw [heq] at hn
    exact hn.trans (stripDot_isPrefix host)
  · refine starDot_of_wildcard ?_ hwl
    rw [heq]
    exact stripDot_of_starDot hn

theorem authKey_eq_some_iff {key : Bytes} :
    authKey name = some key ↔ isCatchAll name = false ∧ fold name = key := by
  cases h : isCatchAll name <;> simp [authKey, h]

theorem routeKey_eq_some_iff {key : Bytes} :
    routeKey name = some key ↔ isCatchAll name = false ∧ requestHost name = key := by
  cases h : isCatchAll name <;> simp [routeKey, h]

/-- A name that both tables read alike is found outright in both or in neither. -/
theorem Linked.found_iff {host : Bytes} (h : Linked serverName host)
    (hal : Routed name host ↔ Spelled name serverName) (hnemp : serverName ≠ []) :
    routeKey name = some host ↔ authKey name = some serverName := by
  constructor
  · intro hroute
    rcases (hal.mp (.inl hroute)).2 with hauth | ⟨pattern, hwl, hauth⟩
    · exact hauth
    · obtain ⟨-, hfo⟩ := authKey_eq_some_iff.mp hauth
      obtain ⟨-, hh⟩ := routeKey_eq_some_iff.mp hroute
      have hn : starDot <+: name := by
        rw [← starDot_fold_iff, hfo]
        exact starDot_of_wildcardOf hwl
      have hstar := h.wildcard_serverName (hh ▸ requestHost_of_starDot hn) hwl
      rwa [eq_of_wildcardOf_starDot hstar hwl] at hauth
  · intro hauth
    rcases hal.mpr ⟨hnemp, .inl hauth⟩ with hroute | ⟨pattern, hwl, hroute⟩
    · exact hroute
    · obtain ⟨-, hfo⟩ := authKey_eq_some_iff.mp hauth
      obtain ⟨-, hh⟩ := routeKey_eq_some_iff.mp hroute
      have hstar : starDot <+: requestHost name := by
        rw [hh]
        exact starDot_of_wildcardOf hwl
      rcases starDot_of_requestHost hstar with hn | ⟨hhd, hmem⟩
      · have hsrv : starDot <+: serverName := by rw [← hfo, starDot_fold_iff]; exact hn
        rwa [eq_of_wildcardOf_starDot (h.wildcard_host hsrv hwl) hwl] at hroute
      · -- A name in brackets is spelled as no server name that a host is compared with.
        have hbracket : serverName.head? = some 0x5B := by
          rw [← hfo, head?_fold_iff (by decide)]
          exact hhd
        have hcls : 0x5D ∈ serverName := by
          rw [← hfo, mem_fold_iff (by decide)]
          exact hmem
        exact absurd hcls (h.open_end hbracket)

open KeyedFold

/-- The claims that decide about a name under a key of claims: those to the name, or else to its
wildcard, or else to every name. -/
def deciding (key : Claim P → Option Bytes) (name : Bytes) (claims : List (Claim P)) :
    List (Claim P) :=
  orElse (claims.filter fun claim => key claim = some name)
    (orElse (claims.filter fun claim => (key claim).isSome && key claim = wildcardOf name)
      (claims.filter fun claim => key claim = none))

def demanded (claims : List (Claim P)) : Option P :=
  claims.foldl (fun row claim => claim.2.clientAuth.or row) none

/-- What the claims to a name's wildcard make, if it has one. -/
theorem bind_wildcardOf {R : Type} (make : List (Claim P) → Option R) (hmake : make [] = none)
    (key : Claim P → Option Bytes) (name : Bytes) (claims : List (Claim P)) :
    ((wildcardOf name).bind fun pattern =>
        make (claims.filter fun claim => key claim = some pattern)) =
      make (claims.filter fun claim => (key claim).isSome && key claim = wildcardOf name) := by
  cases wildcardOf name with
  | none =>
    have hnone : (claims.filter fun claim => (key claim).isSome && decide (key claim = none)) =
        [] := by
      rw [filter_eq_nil_iff]
      intro claim _
      cases key claim <;> simp
    rw [hnone, hmake]
    rfl
  | some pattern =>
    refine congrArg make (filter_congr fun claim _ => ?_)
    cases key claim <;> simp

variable {generation : ListenerGeneration P} {sites : List (Site P)}

theorem Publishes.row_routes (h : Publishes generation sites) (key : Option Bytes) :
    generation.routes.row key =
      ((claims sites).filter fun claim => claim.routeKey = key).getLast?.map Prod.snd := by
  rw [← RouteTable.row_prepareRoutes]
  cases key with
  | none => exact h.default
  | some key => exact AList.perm_lookup h.hosts

/-- Routing takes the last of the claims that decide. -/
theorem Publishes.get_eq (h : Publishes generation sites) (authority : Bytes) :
    generation.routes.get (requestHost authority) =
      (deciding Claim.routeKey (routedHost authority) (claims sites)).getLast?.map Prod.snd := by
  have hwl := bind_wildcardOf (fun claims : List (Claim P) => claims.getLast?.map Prod.snd) rfl
    Claim.routeKey (routedHost authority) (claims sites)
  rw [RouteTable.get_eq, ← routedHost]
  simp only [h.row_routes]
  rw [hwl, deciding, getLast?_orElse, getLast?_orElse, Option.map_or, Option.map_or,
    Option.or_assoc]

theorem foldl_mergeRow_some (row : Option P) (claims : List (Claim P)) :
    claims.foldl ClientAuthTable.mergeRow (some row) =
      some (claims.foldl (fun row claim => claim.2.clientAuth.or row) row) := by
  induction claims generalizing row with
  | nil => rfl
  | cons claim claims ih => exact ih _

theorem foldl_mergeRow_none (claims : List (Claim P)) :
    claims.foldl ClientAuthTable.mergeRow none =
      if claims = [] then none else some (demanded claims) := by
  cases claims with
  | nil => rfl
  | cons claim claims =>
    exact foldl_mergeRow_some _ claims

theorem ClientAuthTable.row_empty (key : Bytes) :
    (empty : ClientAuthTable P).row (some key) = none := by
  simp only [row, empty]
  cases wildcardSuffix key <;> rfl

theorem getD_orElse_demanded (first second third : List (Claim P)) :
    (((if first = [] then none else some (demanded first)).or
      (if second = [] then none else some (demanded second))).or
        (some (demanded third))).getD none = demanded (orElse first (orElse second third)) := by
  cases first with
  | cons claim first => rfl
  | nil =>
    cases second with
    | cons claim second => rfl
    | nil => rfl

/-- A handshake is held to the last demand among the claims that decide. -/
theorem policyFor_prepare (sites : List (Site P)) {sni : Bytes} (hsni : canonicalHost sni ≠ []) :
    (prepare sites).policyFor sni =
      demanded (deciding Claim.authKey (canonicalHost sni) (claims sites)) := by
  have hstr : stripDot sni ≠ [] := by
    intro h
    simp [canonicalHost, h] at hsni
  have hwl := bind_wildcardOf (fun claims : List (Claim P) =>
    claims.foldl ClientAuthTable.mergeRow none) rfl Claim.authKey (canonicalHost sni) (claims sites)
  have hnone : (ClientAuthTable.empty : ClientAuthTable P).row none = some none := rfl
  rw [ClientAuthTable.policyFor_eq _ hstr]
  simp only [ClientAuthTable.row_prepare, ClientAuthTable.row_empty, hnone]
  rw [hwl, foldl_mergeRow_none, foldl_mergeRow_none, foldl_mergeRow_some]
  exact getD_orElse_demanded _ _ _

theorem fallback_prepare (sites : List (Site P)) :
    (prepare sites).fallback =
      demanded ((claims sites).filter fun claim => claim.authKey = none) := by
  have h := ClientAuthTable.row_prepare sites none
  have hnone : (ClientAuthTable.empty : ClientAuthTable P).row none = some none := rfl
  rw [hnone, foldl_mergeRow_some] at h
  exact Option.some.inj h

theorem routeKey_eq_none_iff (claim : Claim P) : claim.routeKey = none ↔ claim.authKey = none := by
  obtain ⟨name, site⟩ := claim
  cases name with
  | none => simp [Claim.routeKey, Claim.authKey]
  | some name =>
    cases h : isCatchAll name <;> simp [Claim.routeKey, Claim.authKey, routeKey, authKey, h]

variable {claim : Claim P} {name : Bytes}

theorem Claim.routeKey_of_name (h : claim.1 = some name) :
    claim.routeKey = MutualTls.routeKey name := by
  rw [routeKey, h, Option.bind_some]

theorem Claim.authKey_of_name (h : claim.1 = some name) :
    claim.authKey = MutualTls.authKey name := by
  rw [authKey, h, Option.bind_some]

section Alike

variable {serverName host : Bytes} {claims : List (Claim P)}

theorem exists_wildcardOf_iff {key : Option Bytes} :
    (∃ pattern, wildcardOf name = some pattern ∧ key = some pattern) ↔
      key.isSome ∧ key = wildcardOf name := by
  constructor
  · rintro ⟨pattern, hwl, rfl⟩
    exact ⟨rfl, hwl.symm⟩
  · rintro ⟨hs, rfl⟩
    obtain ⟨pattern, hpat⟩ := Option.isSome_iff_exists.mp hs
    exact ⟨pattern, hpat, hpat⟩

theorem deciding_of_nil
    (hal : ∀ claim ∈ claims, ∀ name, claim.1 = some name → (Routed name host ↔ Spelled name [])) :
    deciding Claim.routeKey host claims = claims.filter fun claim => claim.authKey = none := by
  have hnt : ∀ claim ∈ claims, ∀ name, claim.1 = some name → ¬ Routed name host :=
    fun claim hcla name hn hrtd => ((hal claim hcla name hn).mp hrtd).1 rfl
  have hfd : (claims.filter fun claim => claim.routeKey = some host) = [] := by
    simp only [filter_eq_nil_iff, decide_eq_true_eq]
    intro claim hcla hk
    obtain ⟨name, hn, hroute⟩ := Option.bind_eq_some_iff.mp hk
    exact hnt claim hcla name hn (.inl hroute)
  have habv : (claims.filter fun claim =>
      claim.routeKey.isSome && claim.routeKey = wildcardOf host) = [] := by
    simp only [filter_eq_nil_iff, Bool.and_eq_true, decide_eq_true_eq, ← exists_wildcardOf_iff]
    rintro claim hcla ⟨pattern, hwl, hk⟩
    obtain ⟨name, hn, hroute⟩ := Option.bind_eq_some_iff.mp hk
    exact hnt claim hcla name hn (.inr ⟨pattern, hwl, hroute⟩)
  rw [deciding, hfd, habv]
  exact filter_congr fun claim _ => decide_eq_decide.mpr (routeKey_eq_none_iff claim)

variable (hnemp : serverName ≠ []) (hal : ∀ claim ∈ claims, ∀ name, claim.1 = some name →
  (Routed name host ↔ Spelled name serverName))

include hnemp hal

theorem filter_found_eq (hlink : Linked serverName host) :
    (claims.filter fun claim => claim.routeKey = some host) =
      claims.filter fun claim => claim.authKey = some serverName := by
  refine filter_congr fun claim hcla => decide_eq_decide.mpr ?_
  cases hn : claim.1 with
  | none => simp [Claim.routeKey, Claim.authKey, hn]
  | some name =>
    rw [Claim.routeKey_of_name hn, Claim.authKey_of_name hn]
    exact hlink.found_iff (hal claim hcla name hn) hnemp

theorem filter_above_eq (hroute : ∀ claim ∈ claims, claim.routeKey ≠ some host)
    (hauth : ∀ claim ∈ claims, claim.authKey ≠ some serverName) :
    (claims.filter fun claim => claim.routeKey.isSome && claim.routeKey = wildcardOf host) =
      claims.filter fun claim =>
        claim.authKey.isSome && claim.authKey = wildcardOf serverName := by
  refine filter_congr fun claim hcla => ?_
  rw [Bool.eq_iff_iff]
  simp only [Bool.and_eq_true, decide_eq_true_eq]
  cases hn : claim.1 with
  | none => simp [Claim.routeKey, Claim.authKey, hn]
  | some name =>
    have hiff := hal claim hcla name hn
    have hnotRoute := hroute claim hcla
    have hnotAuth := hauth claim hcla
    rw [Claim.routeKey_of_name hn] at hnotRoute ⊢
    rw [Claim.authKey_of_name hn] at hnotAuth ⊢
    simpa only [Routed, Spelled, hnotRoute, hnotAuth, hnemp, exists_wildcardOf_iff, ne_eq,
      not_false_eq_true, false_or, true_and] using hiff

/-- Both tables decide by the same claims when they read all names alike. -/
theorem deciding_eq (hlink : Linked serverName host) :
    deciding Claim.routeKey host claims = deciding Claim.authKey serverName claims := by
  have hfd := filter_found_eq hnemp hal hlink
  have hevery : (claims.filter fun claim => claim.routeKey = none) =
      claims.filter fun claim => claim.authKey = none :=
    filter_congr fun claim _ => decide_eq_decide.mpr (routeKey_eq_none_iff claim)
  rw [deciding, deciding, hfd, hevery]
  cases hca : claims.filter fun claim => claim.authKey = some serverName with
  | cons claim rest => rfl
  | nil =>
    rw [hca] at hfd
    rw [filter_above_eq hnemp hal (by simpa using hfd) (by simpa using hca)]

end Alike

theorem mem_domains_of_claim (h : claim ∈ claims sites) (hn : claim.1 = some name) :
    ∃ site ∈ sites, name ∈ site.domains := by
  obtain ⟨site, hsite, hmem⟩ := mem_flatMap.mp h
  refine ⟨site, hsite, ?_⟩
  rw [Site.claims] at hmem
  split at hmem
  · rw [mem_singleton.mp hmem] at hn
    simp at hn
  · obtain ⟨d, hdomain, rfl⟩ := mem_map.mp hmem
    exact Option.some.inj hn ▸ hdomain

theorem demanded_of_getLast {claims : List (Claim P)} {policy : P}
    (hla : claims.getLast? = some claim) (hpol : claim.2.clientAuth = some policy) :
    demanded claims = some policy :=
  foldl_merge_of_getLast (fun claim : Claim P => claim.2.clientAuth) hla hpol none

/-- A handshake is held to the last demand of the claims that decide, and to every name's when it
looks up no name. -/
theorem Publishes.installed_eq
    (h : Publishes generation sites) (t : Transport) (serverName : Bytes) :
    t.installed generation.security serverName =
      if t.lookedUp serverName = [] then
        demanded ((claims sites).filter fun claim => claim.authKey = none)
      else demanded (deciding Claim.authKey (t.lookedUp serverName) (claims sites)) := by
  rw [Transport.installed, h.clientAuth]
  split
  · next hni =>
    have hstr : stripDot (t.offered serverName) = [] := by
      simpa [Transport.lookedUp, canonicalHost, fold] using hni
    rw [ClientAuthTable.policyFor, if_pos hstr, fallback_prepare]
  · next hne => exact policyFor_prepare sites hne

/-- Sites whose names are read alike are protected. -/
theorem guarded_of_alike (hpub : Publishes generation sites)
    (hal : t.MayAsk serverName authority → ∀ site ∈ sites, ∀ name ∈ site.domains,
      Alike t serverName authority name) :
    Guarded t generation serverName authority := by
  intro henf hpasses site p hget hpol
  have hak := ((Transport.rejection_eq_none_iff henf).mp hpasses).2
  have hns : ∀ claim ∈ claims sites, ∀ name, claim.1 = some name →
      (Routed name (routedHost authority) ↔ Spelled name (t.lookedUp serverName)) := by
    intro claim hcla name hn
    obtain ⟨o, ho, hmem⟩ := mem_domains_of_claim hcla hn
    exact hal hak o ho name hmem
  rw [hpub.get_eq] at hget
  obtain ⟨claim, hla, rfl⟩ := Option.map_eq_some_iff.mp hget
  rw [hpub.installed_eq]
  split
  · next hni =>
    rw [hni] at hns
    rw [deciding_of_nil hns] at hla
    exact demanded_of_getLast hla hpol
  · next hne =>
    rw [deciding_eq hne hns (linked_of_mayAsk hak)] at hla
    exact demanded_of_getLast hla hpol

/-! ### Sites that are exposed -/

def publish (sites : List (Site P)) (revision : Nat) : ListenerGeneration P :=
  ⟨⟨prepare sites, revision⟩, RouteTable.prepareRoutes sites⟩

theorem publishes_publish (sites : List (Site P)) (revision : Nat) :
    Publishes (publish sites revision) sites := ⟨rfl, .rfl, rfl⟩

theorem ClientAuthTable.enforcing_recordName (pol : Option P) (table : ClientAuthTable P)
    (name : Bytes) : (table.recordName pol name).enforcing = table.enforcing := by
  rw [recordName]
  split
  · rfl
  · split <;> rfl

theorem ClientAuthTable.enforcing_record (table : ClientAuthTable P) (names : List Bytes)
    (pol : Option P) : (table.record names pol).enforcing = table.enforcing := by
  have hns : (names.foldl (recordName pol) table).enforcing = table.enforcing := by
    induction names generalizing table with
    | nil => rfl
    | cons name names ih => rw [foldl_cons, ih, enforcing_recordName]
  rw [record]
  split
  · rfl
  · exact hns

theorem enforcing_prepareSite (table : ClientAuthTable P) (site : Site P) :
    (prepareSite table site).enforcing = (site.clientAuth.isSome || table.enforcing) := by
  cases h : site.clientAuth with
  | none =>
    simp only [prepareSite, h, ClientAuthTable.insertWithoutClientAuth]
    exact ClientAuthTable.enforcing_record _ _ _
  | some p =>
    simp only [prepareSite, h, ClientAuthTable.insert]
    exact ClientAuthTable.enforcing_record _ _ _

def soleSite (name : Bytes) (policy : P) : Site P := ⟨none, [name], some policy⟩

def demandingSite (policy : P) : Site P := ⟨none, [], some policy⟩

def openSite (name : Bytes) : Site P := ⟨none, [name], none⟩

variable {key : Claim P → Option Bytes}

theorem deciding_singleton
    (h : key claim = some name ∨ ((key claim).isSome ∧ key claim = wildcardOf name)) :
    deciding key name [claim] = [claim] := by
  by_cases hfd : key claim = some name
  · simp [deciding, hfd, orElse]
  · obtain ⟨hs, heq⟩ := h.resolve_left hfd
    simp [deciding, hfd, orElse, hs, ← heq]

/-- No claim decides when none is to the name, to its wildcard or to every name. -/
theorem deciding_eq_nil (hfd : key claim ≠ some name)
    (habv : ¬ ((key claim).isSome ∧ key claim = wildcardOf name)) (hnone : key claim ≠ none) :
    deciding key name [claim] = [] := by
  have habv' : ((key claim).isSome && decide (key claim = wildcardOf name)) = false := by
    simpa using habv
  simp [deciding, hfd, habv', hnone, nil_orElse]

/-- A claim to every name decides when one to a name does not. -/
theorem deciding_pair {every : Claim P} (hevery : key every = none) (hcla : key claim ≠ none) :
    deciding key name [every, claim] =
      if key claim = some name ∨ ((key claim).isSome ∧ key claim = wildcardOf name) then [claim]
      else [every] := by
  by_cases hfd : key claim = some name
  · simp [deciding, hevery, hfd, orElse]
  · by_cases habv : (key claim).isSome ∧ key claim = wildcardOf name
    · simp [deciding, hevery, hfd, habv.1, ← habv.2, orElse]
    · have habv' : ((key claim).isSome && decide (key claim = wildcardOf name)) = false := by
        simpa using habv
      simp only [deciding, filter_cons, hevery, hfd, habv', habv, hcla, decide_false,
        filter_nil, Bool.false_eq_true, if_false, or_self]
      rfl

/-- A request that may be asked for is let through. -/
theorem guarded_publish (h : Guarded t (publish sites 0) serverName authority)
    (hak : t.MayAsk serverName authority) (henf : (prepare sites).enforcing = true) {site : Site P}
    {policy : P} (hget : (publish sites 0).routes.get (requestHost authority) = some site)
    (hpol : site.clientAuth = some policy) :
    t.installed (publish sites 0).security serverName = some policy := by
  have hreqs : (publish sites 0).requiresClientAuth = true := by
    simpa [ListenerGeneration.requiresClientAuth, ClientAuthTable.isEmpty, publish] using henf
  exact h hreqs ((Transport.rejection_eq_none_iff hreqs).mpr ⟨rfl, hak⟩) site policy hget hpol

theorem isCatchAll_of_routed {host : Bytes} (h : Routed name host) : isCatchAll name = false := by
  rcases h with h | ⟨_, -, h⟩
  · exact (routeKey_eq_some_iff.mp h).1
  · exact (routeKey_eq_some_iff.mp h).1

theorem isCatchAll_of_spelled (h : Spelled name serverName) : isCatchAll name = false := by
  rcases h.2 with h | ⟨_, -, h⟩
  · exact (authKey_eq_some_iff.mp h).1
  · exact (authKey_eq_some_iff.mp h).1

theorem exposed_of_routed (pol : P) (hak : t.MayAsk serverName authority)
    (hrtd : Routed name (routedHost authority)) (hspl : ¬ Spelled name (t.lookedUp serverName)) :
    ¬ Guarded t (publish [soleSite name pol] 0) serverName authority := by
  intro hgd
  have hpub := publishes_publish [soleSite name pol] 0
  have hclaims : claims [soleSite name pol] = [(some name, soleSite name pol)] := rfl
  have hget : (publish [soleSite name pol] 0).routes.get (requestHost authority) =
      some (soleSite name pol) := by
    rw [hpub.get_eq, hclaims, deciding_singleton]
    · rfl
    · rw [← exists_wildcardOf_iff]
      exact hrtd
  have hk : authKey name = some (fold name) :=
    authKey_eq_some_iff.mpr ⟨isCatchAll_of_routed hrtd, rfl⟩
  have henf : (prepare [soleSite name pol]).enforcing = true := by
    simp [prepare, enforcing_prepareSite, soleSite]
  have hins := guarded_publish hgd hak henf hget rfl
  rw [hpub.installed_eq, hclaims] at hins
  split at hins
  · simp [Claim.authKey, hk, demanded] at hins
  · next hne =>
    have hn : ¬ (authKey name = some (t.lookedUp serverName) ∨
        ((authKey name).isSome ∧ authKey name = wildcardOf (t.lookedUp serverName))) := by
      rw [← exists_wildcardOf_iff]
      exact fun h => hspl ⟨hne, h⟩
    rw [not_or] at hn
    rw [deciding_eq_nil hn.1 hn.2 (by simp [Claim.authKey, hk])] at hins
    simp [demanded] at hins

theorem exposed_of_spelled (pol : P) (hak : t.MayAsk serverName authority)
    (hrtd : ¬ Routed name (routedHost authority)) (hspl : Spelled name (t.lookedUp serverName)) :
    ¬ Guarded t (publish [demandingSite pol, openSite name] 0) serverName authority := by
  intro hgd
  have hpub := publishes_publish [demandingSite pol, openSite name] 0
  have hclaims : claims [demandingSite pol, openSite name] =
      [(none, demandingSite pol), (some name, openSite name)] := rfl
  have hcatch := isCatchAll_of_spelled hspl
  have hget : (publish [demandingSite pol, openSite name] 0).routes.get
      (requestHost authority) = some (demandingSite pol) := by
    have hk : routeKey name ≠ none := by simp [routeKey, hcatch]
    rw [Routed, exists_wildcardOf_iff] at hrtd
    rw [hpub.get_eq, hclaims, (deciding_pair rfl hk).trans (if_neg hrtd)]
    rfl
  have henf : (prepare [demandingSite pol, openSite name]).enforcing = true := by
    simp [prepare, enforcing_prepareSite, demandingSite]
  have hins := guarded_publish hgd hak henf hget rfl
  have hk : authKey name ≠ none := by simp [authKey, hcatch]
  have hspells := hspl.2
  rw [exists_wildcardOf_iff] at hspells
  rw [hpub.installed_eq, hclaims, if_neg hspl.1,
    (deciding_pair rfl hk).trans (if_pos hspells)] at hins
  simp [demanded, openSite] at hins

/-- Sites with names from a set are protected from a server name and a host, whatever they demand,
exactly when both tables read every name of the set alike. -/
theorem guarded_iff_alike (t : Transport) (serverName authority : Bytes) (names : Set Bytes)
    (policy : P) :
    (∀ (sites : List (Site P)) (generation : ListenerGeneration P),
        (∀ site ∈ sites, ∀ name ∈ site.domains, name ∈ names) → Publishes generation sites →
          Guarded t generation serverName authority) ↔
      (t.MayAsk serverName authority → ∀ name ∈ names, Alike t serverName authority name) := by
  constructor
  · intro hgd hak name hn
    have hsole := hgd [soleSite name policy] _
      (by simpa [soleSite, Site.domains] using hn) (publishes_publish _ 0)
    have hop := hgd [demandingSite policy, openSite name] _
      (by simpa [demandingSite, openSite, Site.domains] using hn) (publishes_publish _ 0)
    constructor
    · intro hrtd
      by_contra hspl
      exact exposed_of_routed policy hak hrtd hspl hsole
    · intro hspl
      by_contra hrtd
      exact exposed_of_spelled policy hak hrtd hspl hop
  · intro hal sites generation hns hpub
    exact guarded_of_alike hpub fun hak site hsite name hn =>
      hal hak name (hns site hsite name hn)

namespace Secure

def site : Site Unit := ⟨none, [ascii "secure.example."], some ()⟩

/-- Its clients name it in the handshake and in the request, and are asked for nothing. -/
theorem not_guarded_dotted :
    ¬ Guarded .tcp (publish [site] 0) (ascii "secure.example") (ascii "secure.example") ∧
      ¬ Guarded .quic (publish [site] 0) (ascii "secure.example") (ascii "secure.example") := by
  constructor
  · intro hgd
    have hins := hgd (by decide) (by decide) site () (by decide) rfl
    exact absurd hins (by decide)
  · intro hgd
    have hins := hgd (by decide) (by decide) site () (by decide) rfl
    exact absurd hins (by decide)

/-- Over TCP the client that names it is let through, over QUIC it is turned away. -/
theorem rejection_dotted :
    Transport.tcp.rejection (publish [site] 0) (ascii "secure.example") 0
        (ascii "Secure.Example.:8443") = none ∧
      Transport.quic.rejection (publish [site] 0) (ascii "secure.example") 0
        (ascii "Secure.Example.:8443") =
          some (ascii "TLS server name and :authority values differ") := by
  decide

end Secure

end Pingclair.MutualTls
