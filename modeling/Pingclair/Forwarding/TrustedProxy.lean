import Pingclair.Forwarding.Chains

/-!
# Who the client is

A request that comes through a proxy comes from the proxy's address; the client is named in a
forwarding header. The headers are believed only when the peer is a trusted proxy, and a
chain is walked from its end, the nearest hop, outward to the first address that is not
trusted.
-/

namespace Pingclair

open ByteText Fallible

structure IpNet where
  contains : IpAddr → Bool

/-- The proxies that may name the client, and the headers they may name it in; `none` is the
built-in set. -/
structure TrustedProxyPolicy where
  networks : List IpNet
  clientIpHeaders : Option (List Bytes)

def xForwardedFor : Bytes := ascii "x-forwarded-for"

namespace TrustedProxyPolicy

variable (policy : TrustedProxyPolicy)

def contains (address : IpAddr) : Bool := policy.networks.any (·.contains address)

def walk (leftmost : Option IpAddr) : List (Option IpAddr) → Option IpAddr
  | [] => leftmost
  -- a hop that hid its address: nothing beyond it can be verified
  | none :: _ => none
  | some address :: rest =>
    if !policy.contains address then some address else walk (some address) rest

/-- The first address from the end of the chain that is not trusted. When all are, the first
of the chain. -/
def clientFrom (chain : List (Option IpAddr)) : Option IpAddr := policy.walk none chain.reverse

variable (http : HttpLib)

def clientFromHeader (name : Bytes) (headers : http.HeaderMap) : Option IpAddr :=
  if name = ascii "forwarded" then
    match parseRfcForwardedChain http headers with
    | .ok (some chain) => policy.clientFrom chain
    | _ => none
  else
    match parseForwardedChain http headers name with
    | .ok (some chain) => policy.clientFrom (chain.map some)
    | _ => none

def xffClient (headers : http.HeaderMap) : Option IpAddr :=
  match parseForwardedChain http headers xForwardedFor with
  | .ok (some chain) => policy.clientFrom (chain.map some)
  | .ok none | .error () => none

def forwardedClient (headers : http.HeaderMap) : Option IpAddr :=
  match parseRfcForwardedChain http headers with
  | .ok (some chain) => policy.clientFrom chain
  | .ok none | .error () => none

def verifiedClientIpWithFallback (transportPeer fallback : IpAddr) (headers : http.HeaderMap) :
    IpAddr :=
  if !policy.contains transportPeer then fallback
  else
    match policy.clientIpHeaders with
    | some names =>
      (names.findSome? fun name => policy.clientFromHeader http name headers).getD fallback
    | none =>
      let bothAbsent := match parseForwardedChain http headers xForwardedFor,
          parseRfcForwardedChain http headers with
        | .ok none, .ok none => true
        | _, _ => false
      match policy.xffClient http headers, policy.forwardedClient http headers with
      | some xffClient, some forwardedClient =>
        -- two headers that name different clients are tampering
        if xffClient = forwardedClient then xffClient else fallback
      | some client, none | none, some client => client
      | none, none =>
        if bothAbsent then
          (((http.get headers (ascii "x-real-ip")).bind http.toStr).bind
            parseForwardedIp).getD fallback
        else fallback

def verifiedClientIp (peer : IpAddr) (headers : http.HeaderMap) : IpAddr :=
  policy.verifiedClientIpWithFallback http peer peer headers

variable {policy http} {headers : http.HeaderMap} {peer fallback address : IpAddr}

theorem clientFrom_concat (had : policy.contains address = false) (front : List (Option IpAddr)) :
    policy.clientFrom (front ++ [some address]) = some address := by
  rw [clientFrom, List.reverse_append, List.reverse_singleton, List.singleton_append, walk, had]
  rfl

/-- Two chains and no `client_ip_headers`: the client of one of them, or the fallback. -/
theorem verifiedClientIp_eq (hdef : policy.clientIpHeaders = none)
    (hpeer : policy.contains peer = true)
    (hpresent : parseForwardedChain http headers xForwardedFor ≠ .ok none) :
    policy.verifiedClientIpWithFallback http peer fallback headers =
      match policy.xffClient http headers, policy.forwardedClient http headers with
      | some xffClient, some forwardedClient =>
        if xffClient = forwardedClient then xffClient else fallback
      | some client, none | none, some client => client
      | none, none => fallback := by
  rw [verifiedClientIpWithFallback, hpeer, hdef]
  cases policy.xffClient http headers <;> cases policy.forwardedClient http headers <;> try rfl
  cases hchn : parseForwardedChain http headers xForwardedFor with
  | error e => rfl
  | ok c =>
    cases c with
    | none => exact absurd hchn hpresent
    | some c => rfl

/-- When the last element of `X-Forwarded-For` is an address that is not trusted, the client
is that address or the fallback, or `X-Forwarded-For` cannot be read and the client is the
one that `Forwarded` names. -/
theorem verifiedClientIp_of_last_hop (lines before : List Bytes) (value element : Bytes)
    (hdefault : policy.clientIpHeaders = none) (hpeer : policy.contains peer = true)
    (hfield : http.getAll headers xForwardedFor = lines ++ [value])
    (hvalue : value.splitOn comma = before ++ [element])
    (hbare : IpAddr.parse (trim element) = some address) (haddr : policy.contains address = false) :
    let client := policy.verifiedClientIpWithFallback http peer fallback headers
    client = address ∨ client = fallback ∨
      parseForwardedChain http headers xForwardedFor = .error () ∧
        policy.forwardedClient http headers = some client := by
  intro client
  cases hchn : parseForwardedChain http headers xForwardedFor with
  | error e =>
    have hcli : client = (policy.forwardedClient http headers).getD fallback := by
      show policy.verifiedClientIpWithFallback http peer fallback headers = _
      rw [verifiedClientIp_eq hdefault hpeer (by simp [hchn]), xffClient, hchn]
      cases policy.forwardedClient http headers <;> rfl
    cases hforwarded : policy.forwardedClient http headers with
    | none => exact .inr (.inl (by rw [hcli, hforwarded]; rfl))
    | some o => exact .inr (.inr ⟨rfl, by rw [hcli, hforwarded]; rfl⟩)
  | ok c =>
    obtain ⟨f, rfl⟩ := parseForwardedChain_last hfield hvalue hbare hchn
    have hxff : policy.xffClient http headers = some address := by
      rw [xffClient, hchn]
      show policy.clientFrom ((f ++ [address]).map some) = some address
      rw [List.map_append]
      exact clientFrom_concat haddr _
    have hcli : client = (policy.forwardedClient http headers).elim address
        fun o => if address = o then address else fallback := by
      show policy.verifiedClientIpWithFallback http peer fallback headers = _
      rw [verifiedClientIp_eq hdefault hpeer (by simp [hchn]), hxff]
      cases policy.forwardedClient http headers <;> rfl
    rw [hcli]
    cases policy.forwardedClient http headers with
    | none => exact .inl rfl
    | some o =>
      by_cases hsm : address = o
      · exact .inl (if_pos hsm)
      · exact .inr (.inl (if_neg hsm))

def tenNet : TrustedProxyPolicy where
  networks := [⟨fun | .v4 octets => octets.toList.head? == some 10 | .v6 _ => false⟩]
  clientIpHeaders := none

theorem verifiedClientIp_of_last_hop_conflict :
    let headers := FieldLines.ofPairs [(xForwardedFor, ascii "1.2.3.4, 203.0.113.5"),
      (ascii "forwarded", ascii "for=1.2.3.4")]
    let c := tenNet.verifiedClientIpWithFallback FieldLines.http (.v4 #v[10, 0, 0, 5])
      (.v4 #v[10, 0, 0, 5]) headers
    c = .v4 #v[203, 0, 113, 5] ∨ c = .v4 #v[10, 0, 0, 5] ∨
      parseForwardedChain FieldLines.http headers xForwardedFor = .error () ∧
        tenNet.forwardedClient FieldLines.http headers = some c :=
  verifiedClientIp_of_last_hop [] [ascii "1.2.3.4"] (ascii "1.2.3.4, 203.0.113.5")
    (ascii " 203.0.113.5") rfl (by decide) (by decide) (by decide)
    (by decide) (by decide)

/-- One word that is no address in `X-Forwarded-For`, and `Forwarded` decides. -/
theorem verifiedClientIp_unreadable_xff :
    let headers := FieldLines.ofPairs [(xForwardedFor, ascii "x, 203.0.113.5"),
      (ascii "forwarded", ascii "for=1.2.3.4")]
    let p : IpAddr := .v4 #v[10, 0, 0, 5]
    let address : IpAddr := .v4 #v[203, 0, 113, 5]
    let c := tenNet.verifiedClientIpWithFallback FieldLines.http p p headers
    tenNet.clientIpHeaders = none ∧ tenNet.contains p = true ∧
      FieldLines.getAll headers xForwardedFor = [ascii "x, 203.0.113.5"] ∧
      (ascii "x, 203.0.113.5").splitOn comma = [ascii "x", ascii " 203.0.113.5"] ∧
      IpAddr.parse (trim (ascii " 203.0.113.5")) = some address ∧
      tenNet.contains address = false ∧ c ≠ address ∧ c ≠ p ∧
      c = .v4 #v[1, 2, 3, 4] := by
  decide +kernel

end TrustedProxyPolicy

end Pingclair
