import Mathlib.Data.List.Destutter
import Pingclair.Cache.Dial
import Pingclair.Http.HeaderMap
import Pingclair.Lib.Framing

/-!
# Isolation of cached responses

All sites share one store, so the key alone decides which stored response answers which request: the
scope of a route, the host and the target. Variants are told apart by the fields that a response
varies on and, where a dial has placeholders, by the upstream that it resolves to.
-/

namespace Pingclair.Cache

open ByteText AsciiCase Framing List Option

structure Digest where
  bytes : Bytes
  length_eq : bytes.length = 16
  deriving DecidableEq

structure RequestHeader (http : HttpLib) where
  method : Bytes
  /-- The authority of the target, which the newer protocols put there. -/
  authority : Option Bytes
  pathAndQuery : Option Bytes
  headers : http.HeaderMap

structure CacheConfig where
  ttlSecs : Nat
  maxSizeBytes : Nat
  deriving DecidableEq

structure Proxy where
  addresses : List Bytes
  cache : Option CacheConfig
  rewriteMethod : Option Bytes
  rewriteUri : Option Bytes
  flushInterval : Option Int
  deriving DecidableEq

/-- A route, by the reverse proxies of its handlers in their order. -/
structure Route where
  proxies : List Proxy
  deriving DecidableEq

structure Site where
  name : Option Bytes
  listen : List Bytes
  routes : List Route
  deriving DecidableEq

structure CacheLib where
  http : HttpLib
  Vars : Type
  hashKey : Bytes → Digest
  /-- The digest of the fields that a response varies on, `none` when there are none. -/
  variance : List (Bytes × Bytes) → Option Digest
  expand : Bytes → RequestHeader http → Option Bytes → Bytes → Vars → Bytes
  parseMethod : Bytes → Option Bytes
  setRawPath : RequestHeader http → Bytes → Option (RequestHeader http)
  /-- The text of a site and the index of a route. -/
  serialize : Site → Nat → Option Bytes
  serialize_inj : ∀ {site site' i i' text}, serialize site i = some text →
    serialize site' i' = some text → site = site' ∧ i = i'

/-- The lengths of a request's texts are lengths of texts in memory. -/
structure RequestHeader.Fits {http : HttpLib} (header : RequestHeader http) : Prop where
  count : ∀ name, (http.getAll header.headers name).length < addressable
  value : ∀ name, ∀ value ∈ http.getAll header.headers name, value.length < addressable
  target : ∀ target ∈ header.pathAndQuery, target.length < addressable

/-- A request on its way to an upstream: as it was received, the route that its site has for it,
the proxy that the handlers bound it to, and as the handlers left it. -/
structure Request (lib : CacheLib) where
  received : RequestHeader lib.http
  site : Site
  routeIndex : Nat
  proxyIndex : Option Nat
  current : RequestHeader lib.http
  verifiedClientIp : Option Bytes
  requestScheme : Bytes
  requestVars : lib.Vars
  fits : current.Fits

variable {lib : CacheLib}

def findReverseProxyConfig (route : Route) : Option Proxy := route.proxies.head?

def Proxy.templates (proxy : Proxy) : List Bytes :=
  proxy.addresses.filter fun address => decide (0x7B ∈ address)

def dynamicDial (route : Route) : Option (List Bytes) :=
  ((findReverseProxyConfig route).map Proxy.templates).filter (· ≠ [])

def routeStreaming (route : Route) : Bool :=
  ((findReverseProxyConfig route).map fun proxy => decide (proxy.flushInterval = some (-1))).getD
    false

def cacheScope (lib : CacheLib) (site : Site) (i : Nat) : Option Digest :=
  match (site.routes[i]?).bind findReverseProxyConfig with
  | some proxy => if proxy.cache.isSome then (lib.serialize site i).map lib.hashKey else none
  | none => none

namespace Request

variable (request : Request lib)

def route : Option Route := request.site.routes[request.routeIndex]?

/-- The place of the proxy that the request is bound to, the first one of its route when the
handlers bound it to none. -/
def boundIndex : Nat := request.proxyIndex.getD 0

def boundProxy : Option Proxy := request.route.bind fun route => route.proxies[request.boundIndex]?

def routeCacheConfig : Option CacheConfig :=
  ((request.route.bind fun route => request.proxyIndex.bind fun i => route.proxies[i]?).or
    (request.route.bind findReverseProxyConfig)).bind Proxy.cache

end Request

def listElements (http : HttpLib) (headers : http.HeaderMap) (name : Bytes) : List Bytes :=
  ((http.getAll headers name).filterMap http.toStr).flatMap (List.splitOn 0x2C)

def listFieldContains (http : HttpLib) (headers : http.HeaderMap) (name token : Bytes) : Bool :=
  (listElements http headers name).any fun candidate => eqIgnoreCase (trim candidate) token

def isWebsocketUpgrade (http : HttpLib) (headers : http.HeaderMap) : Bool :=
  listFieldContains http headers (ascii "upgrade") (ascii "websocket") &&
    listFieldContains http headers (ascii "connection") (ascii "upgrade")

def requestCacheControlBypassesCache (http : HttpLib) (headers : http.HeaderMap) : Bool :=
  (listElements http headers (ascii "cache-control")).any fun directive =>
    let name := trim (((splitOnce 0x3D directive).map Prod.fst).getD directive)
    eqIgnoreCase name (ascii "no-store") || eqIgnoreCase name (ascii "no-cache")

def requestMayBeServedFromCache {http : HttpLib} (request : RequestHeader http) : Bool :=
  decide (request.method = ascii "GET" ∨ request.method = ascii "HEAD") &&
    http.getAll request.headers (ascii "authorization") = [] &&
    http.getAll request.headers (ascii "cookie") = [] &&
    !isWebsocketUpgrade http request.headers &&
    !requestCacheControlBypassesCache http request.headers

def resolveDial (lib : CacheLib) (templates : List Bytes) (request : RequestHeader lib.http)
    (verifiedClientIp : Option Bytes) (vars : lib.Vars) : Option UpstreamSpec :=
  templates.findSome? fun template =>
    let expanded := lib.expand template request verifiedClientIp (ascii "http") vars
    if expanded = [] then none else UpstreamSpec.parse expanded

def upstreamDigest (lib : CacheLib) (upstream : UpstreamSpec) : Digest :=
  lib.hashKey upstream.identity

structure CacheContext where
  ttlSecs : Nat
  maxFileSizeBytes : Nat
  scope : Digest
  upstream : Option Digest
  deriving DecidableEq

def cacheUpstream (request : Request lib) (route : Route) : Option (Option Digest) :=
  match dynamicDial route with
  | none => some none
  | some templates =>
    (resolveDial lib templates request.current request.verifiedClientIp request.requestVars).map
      fun upstream => some (upstreamDigest lib upstream)

/-- Turns caching on for a request. `eviction` is the size limit of the store. -/
def requestCacheFilter (lib : CacheLib) (eviction : Option Nat) (request : Request lib) :
    Option CacheContext := do
  let cache ← request.routeCacheConfig
  guard (requestMayBeServedFromCache request.current)
  let route ← request.route
  guard (!routeStreaming route)
  let scope ← cacheScope lib request.site request.routeIndex
  let upstream ← cacheUpstream request route
  let weightLimit ← eviction
  some { ttlSecs := cache.ttlSecs, maxFileSizeBytes := min cache.maxSizeBytes weightLimit,
         scope, upstream }

def primary (scope : Digest) (host pathAndQuery : Bytes) : Bytes :=
  scope.bytes ++ (bigEndian host.length ++ fold host) ++
    (bigEndian pathAndQuery.length ++ pathAndQuery)

def RequestHeader.host {http : HttpLib} (request : RequestHeader http) : Bytes :=
  ((http.get request.headers (ascii "host")).bind http.toStr).getD []

def RequestHeader.target {http : HttpLib} (request : RequestHeader http) : Bytes :=
  request.pathAndQuery.getD [slash]

def cacheKeyCallback (scope : Digest) (request : Request lib) : Bytes :=
  primary scope request.current.host request.current.target

def headerName (http : HttpLib) (name : Bytes) : Option Bytes :=
  if http.accepts name [] then some (fold name) else none

def varyNames (http : HttpLib) (response : http.HeaderMap) : List (Except Bytes Bytes) :=
  ((((http.getAll response (ascii "vary")).flatMap (List.splitOn 0x2C)).map trimAscii).filter
    (· ≠ [])).map fun name =>
      if name = [star] then .error (ascii "response varies on everything")
      else
        match headerName http name with
        | some name => .ok name
        | none => .error (ascii "response has an invalid Vary field")

def sortedNames (names : List Bytes) : List Bytes :=
  (names.mergeSort fun left right => decide (left ≤ right)).destutter (· ≠ ·)

def fieldPairs (http : HttpLib) (names : List Bytes) (request : http.HeaderMap) :
    List (Bytes × Bytes) :=
  (sortedNames names).map fun name => (name, framedAll (http.getAll request name))

def variance (lib : CacheLib) (response request : lib.http.HeaderMap) : Option Digest :=
  match (varyNames lib.http response).mapM id with
  | .ok names => lib.variance (fieldPairs lib.http names request)
  | .error _ => none

def variantText (upstream : Digest) (vary : Option Digest) : Bytes :=
  upstream.bytes ++
    match vary with
    | some vary => 0x01 :: vary.bytes
    | none => 0x00 :: List.replicate 16 0x00

def withVariance (lib : CacheLib) (upstream : Digest) (vary : Option Digest) : Digest :=
  lib.hashKey (variantText upstream vary)

def cacheVaryFilter (lib : CacheLib) (stored : lib.http.HeaderMap) (context : CacheContext)
    (request : Request lib) : Option Digest :=
  let vary := variance lib stored request.current.headers
  match context.upstream with
  | none => vary
  | some upstream => some (withVariance lib upstream vary)

/-- Why a response that varies is not stored. -/
def varyRefusal (http : HttpLib) (response : http.HeaderMap) : Option Bytes :=
  (varyNames http response).findSome? fun
    | .error reason => some reason
    | .ok _ => none

/-- What a proxy changes of a request before it is sent. -/
def proxyUpstreamFilter (lib : CacheLib) (proxy : Proxy) (request : Request lib) :
    Option (RequestHeader lib.http) :=
  let header :=
    match proxy.rewriteMethod.bind lib.parseMethod with
    | some method => { request.current with method }
    | none => request.current
  match proxy.rewriteUri with
  | none => some header
  | some template =>
    lib.setRawPath header (lib.expand template header request.verifiedClientIp
      request.requestScheme request.requestVars)

def upstreamDial (request : Request lib) : Option UpstreamSpec := do
  let proxy ← request.boundProxy
  let header ← proxyUpstreamFilter lib proxy request
  resolveDial lib proxy.templates header request.verifiedClientIp request.requestVars

/-- The name that a request is given its site by. -/
def requestAuthority {http : HttpLib} (request : RequestHeader http) : Bytes :=
  (request.authority.or ((http.get request.headers (ascii "host")).bind http.toStr)).getD []

/-- Two requests go the same way, and look the same to a stored response. -/
structure Alike (stored : lib.http.HeaderMap) (a b : Request lib) : Prop where
  site : a.site = b.site
  route : a.routeIndex = b.routeIndex
  proxy : a.boundIndex = b.boundIndex
  dial : upstreamDial a = upstreamDial b
  authority : fold (requestAuthority a.received) = fold (requestAuthority b.received)
  target : a.current.target = b.current.target
  vary : ∀ name, .ok name ∈ varyNames lib.http stored →
    lib.http.getAll a.current.headers name = lib.http.getAll b.current.headers name

inductive Hashed (stored : lib.http.HeaderMap) (context : CacheContext) (request : Request lib) :
    Bytes → Prop
  | key : Hashed stored context request (cacheKeyCallback context.scope request)
  | scope {text : Bytes} (h : lib.serialize request.site request.routeIndex = some text) :
      Hashed stored context request text
  | upstream {route : Route} {templates : List Bytes} {spec : UpstreamSpec}
      (hroute : request.route = some route) (htemplates : dynamicDial route = some templates)
      (hspec : resolveDial lib templates request.current request.verifiedClientIp
        request.requestVars = some spec) :
      Hashed stored context request spec.identity
  | variant {upstream : Digest} (h : context.upstream = some upstream) :
      Hashed stored context request
        (variantText upstream (variance lib stored request.current.headers))

/-- A stored response answers two requests only when they are alike, as long as no digests
collide. -/
def Isolated (eviction : Option Nat) (stored : lib.http.HeaderMap) (a b : Request lib) : Prop :=
  ∀ ca cb, requestCacheFilter lib eviction a = some ca →
    requestCacheFilter lib eviction b = some cb →
    varyRefusal lib.http stored = none →
    Set.InjOn lib.hashKey {text | Hashed stored ca a text ∨ Hashed stored cb b text} →
    (∀ names, (varyNames lib.http stored).mapM id = .ok names →
      lib.variance (fieldPairs lib.http names a.current.headers) =
        lib.variance (fieldPairs lib.http names b.current.headers) →
      fieldPairs lib.http names a.current.headers = fieldPairs lib.http names b.current.headers) →
    lib.hashKey (cacheKeyCallback ca.scope a) = lib.hashKey (cacheKeyCallback cb.scope b) →
    cacheVaryFilter lib stored ca a = cacheVaryFilter lib stored cb b →
    Alike stored a b

/-- What the key says of a request is what decides where it goes: it is bound to the first proxy
of its route, its host field names the site it was given, and the dial is expanded of the request
as it is and not mistaken for another. -/
structure Addressed (request : Request lib) : Prop where
  first : request.boundIndex = 0
  host : fold request.current.host = fold (requestAuthority request.received)
  unchanged : ∀ proxy, request.boundProxy = some proxy →
    proxy.templates = [] ∨ proxy.rewriteMethod = none ∧ proxy.rewriteUri = none
  plain : ∀ spec, upstreamDial request = some spec → ¬spec.Ambiguous

theorem primary_inj {scope scope' : Digest} {host host' target target' : Bytes}
    (hh : host.length < addressable) (hh' : host'.length < addressable)
    (htg : target.length < addressable) (htg' : target'.length < addressable)
    (h : primary scope host target = primary scope' host' target') :
    scope = scope' ∧ fold host = fold host' ∧ target = target' := by
  have hframed (host : Bytes) : bigEndian host.length ++ fold host = framed (fold host) := by
    rw [framed, length_fold]
  simp only [primary, hframed, append_assoc] at h
  obtain ⟨hsc, hrest⟩ := append_inj h (scope.length_eq.trans scope'.length_eq.symm)
  obtain ⟨hhosts, hrest⟩ := framed_append_inj (by rwa [length_fold]) (by rwa [length_fold]) hrest
  have htargets : framed target ++ [] = framed target' ++ [] := by
    rw [append_nil, append_nil]
    exact hrest
  refine ⟨?_, hhosts, (framed_append_inj htg htg' htargets).1⟩
  cases scope
  cases scope'
  cases hsc
  rfl

theorem variantText_inj {up up' : Digest} {vary vary' : Option Digest}
    (h : variantText up vary = variantText up' vary') : up = up' ∧ vary = vary' := by
  obtain ⟨hup, hvary⟩ := append_inj h (up.length_eq.trans up'.length_eq.symm)
  refine ⟨by cases up; cases up'; cases hup; rfl, ?_⟩
  match vary, vary' with
  | none, none => rfl
  | some ⟨_, _⟩, some ⟨_, _⟩ =>
    cases hvary
    rfl
  | none, some _ => exact absurd (List.cons.inj hvary).1 (by decide)
  | some _, none => exact absurd (List.cons.inj hvary).1 (by decide)

variable {http : HttpLib} {names : List Bytes}

variable {header : RequestHeader http}

theorem RequestHeader.Fits.host_lt (h : header.Fits) : header.host.length < addressable := by
  unfold RequestHeader.host
  cases hv : (http.get header.headers (ascii "host")).bind http.toStr with
  | none => simp [addressable]
  | some text =>
    obtain ⟨value, hget, ht⟩ := bind_eq_some_iff.mp hv
    rw [(http.toStr_eq ht).1]
    exact h.value _ value (mem_of_head? hget)

theorem RequestHeader.Fits.target_lt (h : header.Fits) : header.target.length < addressable := by
  unfold RequestHeader.target
  cases hv : header.pathAndQuery with
  | none => simp [addressable]
  | some target => exact h.target target hv

theorem mem_destutter' {a x : Bytes} : x ∈ names.destutter' (· ≠ ·) a ↔ x = a ∨ x ∈ names := by
  induction names generalizing a with
  | nil => simp
  | cons name names ih =>
    rw [List.destutter'_cons]
    split
    · rw [mem_cons, ih, mem_cons]
    · next hsm =>
      grind

theorem mem_destutter {x : Bytes} : x ∈ names.destutter (· ≠ ·) ↔ x ∈ names := by
  cases names with
  | nil => simp
  | cons f rest => rw [List.destutter, mem_destutter', mem_cons]

theorem mem_sortedNames {name : Bytes} : name ∈ sortedNames names ↔ name ∈ names := by
  rw [sortedNames, mem_destutter, mem_mergeSort]

theorem getAll_eq_of_fieldPairs_eq {a b : Request lib}
    (h : fieldPairs lib.http names a.current.headers = fieldPairs lib.http names b.current.headers)
    {name : Bytes} (hn : name ∈ names) :
    lib.http.getAll a.current.headers name = lib.http.getAll b.current.headers name := by
  have hpa := map_inj_left.mp h name (mem_sortedNames.mpr hn)
  exact framedAll_inj (a.fits.count name) (b.fits.count name) (a.fits.value name)
    (b.fits.value name) (Prod.mk.inj hpa).2

theorem exists_names {stored : http.HeaderMap} (h : varyRefusal http stored = none) :
    ∃ names, (varyNames http stored).mapM id = .ok names ∧
      ∀ name, .ok name ∈ varyNames http stored → name ∈ names := by
  rw [varyRefusal] at h
  generalize varyNames http stored = found at h ⊢
  induction found with
  | nil => exact ⟨[], rfl, by simp⟩
  | cons first rest ih =>
    cases first with
    | error reason => simp at h
    | ok name =>
      obtain ⟨names, hns, hmem⟩ := ih (by simpa using h)
      refine ⟨name :: names, ?_, ?_⟩
      · rw [mapM_cons, hns]
        rfl
      · intro name' hname'
        rcases mem_cons.mp hname' with heq | hrest
        · cases heq
          exact mem_cons_self
        · exact mem_cons_of_mem _ (hmem name' hrest)

/-- What the filter leaves of a request that it turns caching on for. -/
structure Filtered (request : Request lib) (context : CacheContext) (route : Route) : Prop where
  route_eq : request.route = some route
  scope : cacheScope lib request.site request.routeIndex = some context.scope
  upstream : match dynamicDial route with
    | none => context.upstream = none
    | some templates => ∃ spec, resolveDial lib templates request.current
        request.verifiedClientIp request.requestVars = some spec ∧
          context.upstream = some (upstreamDigest lib spec)

theorem exists_filtered {eviction : Option Nat} {request : Request lib} {context : CacheContext}
    (h : requestCacheFilter lib eviction request = some context) :
    ∃ route, Filtered request context route := by
  simp only [requestCacheFilter, bind_eq_bind, bind_eq_some_iff] at h
  obtain ⟨c, -, -, -, route, hroute, -, -, s, hsc, u, hup, limit, -, hcontext⟩ := h
  obtain rfl := Option.some.inj hcontext
  refine ⟨route, hroute, hsc, ?_⟩
  rw [cacheUpstream] at hup
  cases hdial : dynamicDial route with
  | none =>
    rw [hdial] at hup
    exact (Option.some.inj hup).symm
  | some templates =>
    rw [hdial] at hup
    obtain ⟨sp, hspec, heq⟩ := map_eq_some_iff.mp hup
    exact ⟨sp, hspec, heq.symm⟩

theorem exists_serialize {site : Site} {i : Nat} {scope : Digest}
    (h : cacheScope lib site i = some scope) :
    ∃ text, lib.serialize site i = some text ∧ lib.hashKey text = scope := by
  rw [cacheScope] at h
  split at h
  · rw [ite_none_right_eq_some] at h
    exact map_eq_some_iff.mp h.2
  · simp at h

/-- The dial of a request that its key can address is the one in the key. -/
theorem Addressed.dial {request : Request lib} (hadr : Addressed request) {route : Route}
    (hroute : request.route = some route) :
    upstreamDial request = (dynamicDial route).bind fun templates =>
      resolveDial lib templates request.current request.verifiedClientIp request.requestVars := by
  have hbd : request.boundProxy = findReverseProxyConfig route := by
    rw [Request.boundProxy, hroute, hadr.first, findReverseProxyConfig, List.head?_eq_getElem?]
    rfl
  rw [upstreamDial, dynamicDial, hbd]
  cases hpx : findReverseProxyConfig route with
  | none => rfl
  | some p =>
    rcases hadr.unchanged p (hbd.trans hpx) with hstc | ⟨hmth, huri⟩
    · cases hhd : proxyUpstreamFilter lib p request <;>
        simp [hhd, hstc, resolveDial, filter_some]
    · have hhd : proxyUpstreamFilter lib p request = some request.current := by
        simp [proxyUpstreamFilter, hmth, huri]
      by_cases hstc : p.templates = []
      · simp [hhd, hstc, resolveDial, filter_some]
      · simp [hhd, hstc, filter_some]

section Shared

variable {stored : lib.http.HeaderMap} {a b : Request lib} {ca cb : CacheContext}

/-- Equal keys are of one route. -/
theorem same_route {routeA routeB : Route} (ha : Filtered a ca routeA) (hb : Filtered b cb routeB)
    (hhash : Set.InjOn lib.hashKey {text | Hashed stored ca a text ∨ Hashed stored cb b text})
    (h : ca.scope = cb.scope) : a.site = b.site ∧ a.routeIndex = b.routeIndex := by
  obtain ⟨t, htA, hscA⟩ := exists_serialize ha.scope
  obtain ⟨tx, htB, hscB⟩ := exists_serialize hb.scope
  obtain rfl := hhash (.inl (.scope htA)) (.inr (.scope htB)) (hscA.trans (h.trans hscB.symm))
  exact lib.serialize_inj htA htB

/-- Equal variants of one route are of one dial, and vary alike. -/
theorem same_variant {route : Route} (ha : Filtered a ca route) (hb : Filtered b cb route)
    (hhash : Set.InjOn lib.hashKey {text | Hashed stored ca a text ∨ Hashed stored cb b text})
    (haddressedA : Addressed a) (haddressedB : Addressed b)
    (h : cacheVaryFilter lib stored ca a = cacheVaryFilter lib stored cb b) :
    upstreamDial a = upstreamDial b ∧
      variance lib stored a.current.headers = variance lib stored b.current.headers := by
  have hdialA := haddressedA.dial ha.route_eq
  have hdialB := haddressedB.dial hb.route_eq
  have huA := ha.upstream
  have huB := hb.upstream
  cases htemplates : dynamicDial route with
  | none =>
    simp only [htemplates] at hdialA hdialB huA huB
    simp only [cacheVaryFilter, huA, huB] at h
    exact ⟨hdialA.trans hdialB.symm, h⟩
  | some templates =>
    simp only [htemplates, bind_some] at hdialA hdialB huA huB
    obtain ⟨s, hsA, hcontextA⟩ := huA
    obtain ⟨sp, hsB, hcontextB⟩ := huB
    simp only [cacheVaryFilter, hcontextA, hcontextB, some.injEq] at h
    obtain ⟨hdigest, hvary⟩ := variantText_inj
      (hhash (.inl (.variant hcontextA)) (.inr (.variant hcontextB)) h)
    have hidt := hhash (.inl (.upstream ha.route_eq htemplates hsA))
      (.inr (.upstream hb.route_eq htemplates hsB)) hdigest
    rw [hsA] at hdialA
    rw [hsB] at hdialB
    obtain rfl := UpstreamSpec.identity_inj (haddressedA.plain s hdialA)
      (haddressedB.plain sp hdialB) hidt
    exact ⟨hdialA.trans hdialB.symm, hvary⟩

end Shared

/-- Requests that their keys can address share a stored response only when they are alike. -/
theorem isolated (eviction : Option Nat) (stored : lib.http.HeaderMap) (a b : Request lib)
    (ha : Addressed a) (hb : Addressed b) : Isolated eviction stored a b := by
  intro ca cb hca hcb hstd hhash hvariance hk hvariant
  obtain ⟨r, hrA⟩ := exists_filtered hca
  obtain ⟨routeB, hrB⟩ := exists_filtered hcb
  obtain ⟨hsc, hh, htg⟩ := primary_inj a.fits.host_lt b.fits.host_lt a.fits.target_lt
    b.fits.target_lt (hhash (.inl .key) (.inr .key) hk)
  obtain ⟨hsite, hidx⟩ := same_route hrA hrB hhash hsc
  obtain rfl : r = routeB := by
    have hsm : a.route = b.route := by rw [Request.route, Request.route, hsite, hidx]
    exact Option.some.inj (hrA.route_eq.symm.trans (hsm.trans hrB.route_eq))
  obtain ⟨hdial, hvary⟩ := same_variant hrA hrB hhash ha hb hvariant
  obtain ⟨names, hns, hmem⟩ := exists_names hstd
  refine ⟨hsite, hidx, ha.first.trans hb.first.symm, hdial, ?_, htg, fun name hn => ?_⟩
  · rw [← ha.host, hh, hb.host]
  · simp only [variance, hns] at hvary
    exact getAll_eq_of_fieldPairs_eq (hvariance names hns hvary) (hmem name hn)

/-- Two branches of a route share stored responses, unless its dial has placeholders. -/
theorem not_isolated_of_branches {eviction : Option Nat} {stored : lib.http.HeaderMap}
    {a b : Request lib} {ca cb : CacheContext} {route : Route}
    (ha : requestCacheFilter lib eviction a = some ca)
    (hb : requestCacheFilter lib eviction b = some cb) (hsite : a.site = b.site)
    (hidx : a.routeIndex = b.routeIndex) (hcur : a.current = b.current)
    (hroute : a.route = some route) (hstc : dynamicDial route = none)
    (hbranches : a.boundIndex ≠ b.boundIndex) (hstd : varyRefusal lib.http stored = none)
    (hhash : Set.InjOn lib.hashKey {text | Hashed stored ca a text ∨ Hashed stored cb b text}) :
    ¬Isolated eviction stored a b := by
  intro h
  obtain ⟨r, hrA, hscA, huA⟩ := exists_filtered ha
  obtain ⟨rt, hrB, hscB, huB⟩ := exists_filtered hb
  obtain rfl := Option.some.inj (hroute.symm.trans hrA)
  have hsm : a.route = b.route := by rw [Request.route, Request.route, hsite, hidx]
  obtain rfl := Option.some.inj (hroute.symm.trans (hsm.trans hrB))
  have hsc : ca.scope = cb.scope := by
    rw [hsite, hidx, hscB] at hscA
    exact (Option.some.inj hscA).symm
  simp only [hstc] at huA huB
  refine hbranches (h ca cb ha hb hstd hhash (fun _ _ _ => by rw [hcur]) ?_ ?_).proxy
  · rw [cacheKeyCallback, cacheKeyCallback, hsc, hcur]
  · simp [cacheVaryFilter, huA, huB, hcur]

def branch (address : String) : Proxy :=
  { addresses := [ascii address], cache := some { ttlSecs := 60, maxSizeBytes := 1048576 },
    rewriteMethod := none, rewriteUri := none, flushInterval := none }

def branchSite : Site :=
  { name := some (ascii "example.com"), listen := [ascii ":443"],
    routes := [{ proxies := [branch "internal:80", branch "public:80"] }] }

def plainLib : CacheLib where
  http := FieldLines.http
  Vars := Unit
  hashKey text := { bytes := List.replicate 16 (if text = [] then 0 else 1), length_eq := by simp }
  variance _ := none
  expand template _ _ _ _ := template
  parseMethod := some
  setRawPath header target := some { header with pathAndQuery := some target }
  serialize site i := if site = branchSite ∧ i = 0 then some [] else none
  serialize_inj := by
    intro site site' i i' text h h'
    rw [ite_none_right_eq_some] at h h'
    exact ⟨h.1.1.trans h'.1.1.symm, h.1.2.trans h'.1.2.symm⟩

theorem fits_of_lines (lines : List FieldLine) {method target : Bytes} {authority : Option Bytes}
    (hc : lines.length < addressable) (hv : ∀ line ∈ lines, line.value.length < addressable)
    (htg : target.length < addressable) :
    ({ method, authority, pathAndQuery := some target, headers := lines } :
      RequestHeader FieldLines.http).Fits := by
  refine ⟨fun name => ?_, fun name value hmem => ?_, fun target' htg' => ?_⟩
  · show ((lines.filter fun line => line.name == fold name).map FieldLine.value).length < _
    rw [length_map]
    exact (length_filter_le _ _).trans_lt hc
  · obtain ⟨line, hli, rfl⟩ := mem_map.mp hmem
    exact hv line (mem_filter.mp hli).1
  · obtain rfl := Option.some.inj htg'
    exact htg

def hostLines (host : String) : List FieldLine :=
  FieldLines.ofPairs [(ascii "Host", ascii host)]

def hostHeader (host : String) : RequestHeader FieldLines.http :=
  { method := ascii "GET", authority := none, pathAndQuery := some (ascii "/report"),
    headers := hostLines host }

theorem fits_lower : (hostHeader "example.com").Fits :=
  fits_of_lines _ (by decide) (by decide) (by decide)

theorem fits_upper : (hostHeader "EXAMPLE.com").Fits :=
  fits_of_lines _ (by decide) (by decide) (by decide)

def branchRequest (header : RequestHeader FieldLines.http) (fits : header.Fits) (client : String)
    (proxyIndex : Nat) : Request plainLib :=
  { received := header, site := branchSite, routeIndex := 0, proxyIndex := some proxyIndex,
    current := header, verifiedClientIp := some (ascii client),
    requestScheme := ascii "https", requestVars := (), fits }

def internalRequest : Request plainLib :=
  branchRequest (hostHeader "example.com") fits_lower "10.0.0.1" 0

def publicRequest : Request plainLib :=
  branchRequest (hostHeader "example.com") fits_lower "203.0.113.9" 1

def spelledRequest : Request plainLib :=
  branchRequest (hostHeader "EXAMPLE.com") fits_upper "10.0.0.2" 0

def branchContext : CacheContext :=
  { ttlSecs := 60, maxFileSizeBytes := 1048576, scope := plainLib.hashKey [], upstream := none }

theorem filter_branches :
    requestCacheFilter plainLib (some 1048576) internalRequest = some branchContext ∧
    requestCacheFilter plainLib (some 1048576) publicRequest = some branchContext ∧
    requestCacheFilter plainLib (some 1048576) spelledRequest = some branchContext := by
  decide

/-- Only the key and the scope of these requests are hashed. -/
theorem hashed_branch {header : RequestHeader FieldLines.http} {fits : header.Fits}
    {cl : String} {i : Nat} {stored : FieldLines.http.HeaderMap} {text : Bytes}
    (h : Hashed stored branchContext (branchRequest header fits cl i) text) :
    text = cacheKeyCallback branchContext.scope (branchRequest header fits cl i) ∨ text = [] := by
  have hser : plainLib.serialize branchSite 0 = some [] := by decide
  have hstc : dynamicDial { proxies := [branch "internal:80", branch "public:80"] } = none := by
    decide
  cases h with
  | key => exact .inl rfl
  | scope h => exact .inr (Option.some.inj (h.symm.trans hser))
  | upstream hroute htemplates hspec =>
    obtain rfl := Option.some.inj hroute
    cases htemplates
  | variant h => simp [branchContext] at h

theorem injOn_branches (stored : List FieldLine) {a b : Request plainLib}
    (ha : ∀ text, Hashed stored branchContext a text →
      text = cacheKeyCallback branchContext.scope a ∨ text = [])
    (hb : ∀ text, Hashed stored branchContext b text →
      text = cacheKeyCallback branchContext.scope b ∨ text = [])
    (hkey : cacheKeyCallback branchContext.scope a = cacheKeyCallback branchContext.scope b)
    (hne : cacheKeyCallback branchContext.scope b ≠ []) :
    Set.InjOn plainLib.hashKey
      {text | Hashed stored branchContext a text ∨ Hashed stored branchContext b text} := by
  have hone : ∀ text, Hashed stored branchContext a text ∨ Hashed stored branchContext b text →
      text = cacheKeyCallback branchContext.scope b ∨ text = [] := by
    rintro text (h | h)
    · exact hkey ▸ ha text h
    · exact hb text h
  intro text htext text' htext' heq
  rcases hone text htext with rfl | rfl <;> rcases hone text' htext' with rfl | rfl
  · rfl
  · exact absurd (by simpa [plainLib] using heq) hne
  · exact absurd (by simpa [plainLib] using heq) hne
  · rfl

/-- A client of the internal branch and one of the public branch share a stored response. -/
theorem not_isolated_branches :
    ¬Isolated (some 1048576) (hostLines "example.com") internalRequest publicRequest :=
  not_isolated_of_branches filter_branches.1 filter_branches.2.1 rfl rfl rfl rfl (by decide)
    (by decide) (by decide)
    (injOn_branches _ (fun _ => hashed_branch) (fun _ => hashed_branch) rfl (by decide))

/-- Two spellings of a host share a stored response, and go the same way. -/
theorem isolated_spellings :
    @Alike plainLib (hostLines "example.com") internalRequest spelledRequest := by
  have hk : cacheKeyCallback branchContext.scope internalRequest =
      cacheKeyCallback branchContext.scope spelledRequest := by decide
  have hadr {request : Request plainLib} (hf : request.boundIndex = 0)
      (hh : fold request.current.host = fold (requestAuthority request.received))
      (hpx : request.boundProxy = some (branch "internal:80"))
      (hdial : upstreamDial request = none) : Addressed request :=
    ⟨hf, hh, fun p h => by
      obtain rfl := Option.some.inj (hpx.symm.trans h)
      exact .inr ⟨rfl, rfl⟩, fun s h => absurd (hdial.symm.trans h) (by simp)⟩
  have hns : varyNames plainLib.http (hostLines "example.com") = [] :=
    eq_nil_of_length_eq_zero (by decide)
  have hvary (request : Request plainLib) :
      cacheVaryFilter plainLib (hostLines "example.com") branchContext request = none := by
    rfl
  have hpairs (headers : plainLib.http.HeaderMap) : fieldPairs plainLib.http [] headers = [] := by
    simp [fieldPairs, sortedNames]
  have hstd : varyRefusal plainLib.http (hostLines "example.com") = none := by
    unfold varyRefusal
    rfl
  have hinternal : Addressed internalRequest := hadr rfl rfl rfl (by decide)
  have hspl : Addressed spelledRequest := hadr rfl rfl rfl (by decide)
  have hhash := injOn_branches (hostLines "example.com") (a := internalRequest)
    (b := spelledRequest) (fun _ => hashed_branch) (fun _ => hashed_branch) hk
    (by decide)
  refine isolated (some 1048576) (hostLines "example.com") internalRequest spelledRequest
    hinternal hspl branchContext branchContext filter_branches.1 filter_branches.2.2 hstd
    hhash ?_ (congrArg plainLib.hashKey hk) ((hvary _).trans (hvary _).symm)
  intro names h _
  obtain rfl : [] = names := Except.ok.inj h
  rw [hpairs, hpairs]

end Pingclair.Cache
