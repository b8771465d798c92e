import Pingclair.Caddyfile.SiteAddress
import Pingclair.Config.SharedPorts

/-!
# The interface of a site

A site's `bind`, or the default of the configuration for a site that names no interface, replaces
the host of every address that the site listens on. A configuration in which no address changes is
answered as it is.
-/

namespace Pingclair

open ByteText Numerals IpAddr Caddyfile List

def isEveryInterface (address : Bytes) : Bool :=
  let host := (rsplitOnce colon (normalizeListenAddr address)).bind fun (host, _) =>
    (host.dropPrefix? [openBracket]).bind (·.dropSuffix? [closeBracket])
  (host.bind (parseWith readIpv6Addr)).any fun host => (v6 host).isUnspecified

def rebind (address host : Bytes) : Option Bytes := do
  let (_, port) ← rsplitOnce colon (normalizeListenAddr address)
  let port ← parseUnsigned 65535 port
  return host ++ colon :: decimal port

def rebound (host address : Bytes) : Bytes := (rebind address host).getD address

/-- One of two equal addresses is enough. -/
def pushNew (bound : List Bytes) (next : Bytes) : List Bytes :=
  if bound.contains next then bound else bound ++ [next]

def reboundAll (host : Bytes) (addresses : List Bytes) : List Bytes :=
  (addresses.map (rebound host)).foldl pushNew []

namespace ServerConfig

def addressLists (server : ServerConfig) : List (List Bytes) :=
  [server.listen, server.plaintextListen, server.proxyProtocolListen]

def bindHost (server : ServerConfig) : Option Bytes := server.bind.bind bindSocketHost

def applyBind (server : ServerConfig) : ServerConfig :=
  match server.bindHost with
  | none => server
  | some host =>
    { server with
      listen := reboundAll host server.listen
      plaintextListen := reboundAll host server.plaintextListen
      proxyProtocolListen := reboundAll host server.proxyProtocolListen }

def inheritsDefaultBind (server : ServerConfig) (defaultBind : List Bytes) : Bool :=
  server.bind.isNone && defaultBind.head?.any (· ≠ []) && server.listen.all isEveryInterface

def inheritDefaultBind (server : ServerConfig) (defaultBind : List Bytes) : ServerConfig :=
  if server.inheritsDefaultBind defaultBind then { server with bind := defaultBind.head? }
  else server

def bindChangesListeners (server : ServerConfig) : Bool :=
  server.bindHost.any fun host =>
    server.addressLists.flatten.any fun address => (rebind address host).any (· ≠ address)

end ServerConfig

structure ListenerConfig extends PingclairConfig where
  defaultBind : List Bytes

namespace ListenerConfig

def bound (config : ListenerConfig) : ListenerConfig :=
  { config with servers := config.servers.map fun server =>
      (server.inheritDefaultBind config.defaultBind).applyBind }

def changes (config : ListenerConfig) : Bool :=
  config.servers.any fun server =>
    server.inheritsDefaultBind config.defaultBind || server.bindChangesListeners

def bindListeners (config : ListenerConfig) : ListenerConfig :=
  if config.changes then config.bound else config

end ListenerConfig

section Rebound

variable {host address next : Bytes} {addresses : List Bytes}

theorem normalizeListenAddr_append (host digits : Bytes) :
    ∃ front, normalizeListenAddr (host ++ colon :: digits) = front ++ colon :: digits := by
  rw [normalizeListenAddr]
  cases hdr : (host ++ colon :: digits).dropPrefix? [colon] with
  | none => exact ⟨host, rfl⟩
  | some port =>
    have hpt := dropPrefix?_eq_some.mp hdr
    cases host with
    | nil =>
      obtain rfl : digits = port := by simpa using hpt
      exact ⟨ascii "[::]", append_assoc (ascii "[::]") [colon] digits⟩
    | cons b host =>
      obtain ⟨-, rfl⟩ : b = colon ∧ host ++ colon :: digits = port := by simpa using hpt
      exact ⟨ascii "[::]:" ++ host, (append_assoc _ _ _).symm⟩

theorem rebind_rebind (h : rebind address host = some next) : rebind next host = some next := by
  simp only [rebind, bind, Option.bind_eq_some_iff] at h
  obtain ⟨⟨before, text⟩, -, port, hpt, h⟩ := h
  obtain rfl := Option.some.inj h
  have hle : port ≤ 65535 := by
    rw [parseUnsigned] at hpt
    split at hpt
    · cases hpt
    · exact of_decide_eq_true (Option.filter_eq_some_iff.mp hpt).2
  obtain ⟨f, hfrt⟩ := normalizeListenAddr_append host (decimal port)
  simp [rebind, hfrt, rsplitOnce_append (SocketAddress.colon_notMem_decimal port),
    SocketAddress.parseUnsigned_decimal hle]

theorem rebound_rebound (host address : Bytes) :
    rebound host (rebound host address) = rebound host address := by
  cases h : rebind address host with
  | none => simp [rebound, h]
  | some next => simp [rebound, h, rebind_rebind h]

theorem any_rebind_iff : (rebind address host).any (· ≠ address) = true ↔
    rebound host address ≠ address := by
  rw [rebound]
  cases rebind address host <;> simp

end Rebound

section Lists

variable {host : Bytes} {addresses bound : List Bytes}

theorem mem_pushNew {next address : Bytes} :
    address ∈ pushNew bound next ↔ address ∈ bound ∨ address = next := by
  rw [pushNew]
  split
  · next h => exact ⟨.inl, fun h' => h'.elim id (· ▸ contains_iff_mem.mp h)⟩
  · simp

theorem nodup_pushNew {next : Bytes} (h : bound.Nodup) : (pushNew bound next).Nodup := by
  rw [pushNew]
  split
  · exact h
  · next hn =>
    rw [contains_iff_mem] at hn
    refine nodup_append.mpr ⟨h, by simp, ?_⟩
    rintro address hmem _ hnx rfl
    exact hn (mem_singleton.mp hnx ▸ hmem)

theorem mem_foldl_pushNew {address : Bytes} :
    address ∈ addresses.foldl pushNew bound ↔ address ∈ bound ∨ address ∈ addresses := by
  induction addresses generalizing bound with
  | nil => simp
  | cons next addresses ih => rw [foldl_cons, ih, mem_pushNew, mem_cons, or_assoc]

theorem nodup_foldl_pushNew (h : bound.Nodup) : (addresses.foldl pushNew bound).Nodup := by
  induction addresses generalizing bound with
  | nil => exact h
  | cons next addresses ih => exact ih (nodup_pushNew h)

theorem foldl_pushNew_eq (h : (bound ++ addresses).Nodup) :
    addresses.foldl pushNew bound = bound ++ addresses := by
  induction addresses generalizing bound with
  | nil => simp
  | cons next addresses ih =>
    have hnx : next ∉ bound := fun hmem =>
      (nodup_append.mp h).2.2 next hmem next mem_cons_self rfl
    have hpu : pushNew bound next = bound ++ [next] := by
      simp [pushNew, hnx]
    rw [foldl_cons, hpu, ih (by simpa using h), append_assoc, singleton_append]

theorem rebound_of_mem {address : Bytes} (h : address ∈ reboundAll host addresses) :
    rebound host address = address := by
  obtain h | h := mem_foldl_pushNew.mp h
  · cases h
  · obtain ⟨address, -, rfl⟩ := mem_map.mp h
    exact rebound_rebound host address

theorem reboundAll_eq_self_iff (h : ∀ address ∈ addresses, rebound host address = address) :
    reboundAll host addresses = addresses ↔ addresses.Nodup := by
  have hma : addresses.map (rebound host) = addresses := (map_congr_left h).trans (map_id addresses)
  rw [reboundAll, hma]
  constructor
  · intro h
    exact h ▸ nodup_foldl_pushNew nodup_nil
  · exact fun h => foldl_pushNew_eq (by simpa using h)

end Lists

namespace ServerConfig

variable {server : ServerConfig} {defaultBind : List Bytes}

theorem bindChangesListeners_eq_false_iff : server.bindChangesListeners = false ↔
    ∀ host ∈ server.bindHost, ∀ list ∈ server.addressLists, ∀ address ∈ list,
      rebound host address = address := by
  have hany (host : Bytes) : (server.addressLists.flatten.any fun address =>
      (rebind address host).any (· ≠ address)) = false ↔
      ∀ list ∈ server.addressLists, ∀ address ∈ list, rebound host address = address := by
    rw [any_eq_false]
    simp only [any_rebind_iff, not_not, mem_flatten]
    exact ⟨fun h list hls address hmem => h address ⟨list, hls, hmem⟩,
      fun h address ⟨list, hls, hmem⟩ => h list hls address hmem⟩
  rw [bindChangesListeners]
  cases server.bindHost with
  | none => simp
  | some host => simpa using hany host

theorem applyBind_eq_self_iff (h : server.bindChangesListeners = false) :
    server.applyBind = server ↔
      ∀ host ∈ server.bindHost, ∀ list ∈ server.addressLists, list.Nodup := by
  rw [bindChangesListeners_eq_false_iff] at h
  rw [applyBind]
  cases hh : server.bindHost with
  | none => simp
  | some host =>
    have hls {list : List Bytes} (hls : list ∈ server.addressLists) :=
      reboundAll_eq_self_iff (h host hh list hls)
    obtain ⟨name, bind, tls, l, p, pr⟩ := server
    simp only [addressLists, mem_cons, not_mem_nil, or_false] at hls
    simp [addressLists, hls]

theorem bindChangesListeners_applyBind : server.applyBind.bindChangesListeners = false := by
  rw [bindChangesListeners_eq_false_iff]
  cases hh : server.bindHost with
  | none =>
    have hsm : server.applyBind = server := by rw [applyBind, hh]
    simp [hsm, hh]
  | some host =>
    intro host' hh' l hls address hmem
    rw [applyBind, hh] at hh' hls
    obtain rfl : host' = host := by simpa [bindHost] using hh'.symm.trans hh
    simp only [addressLists, mem_cons, not_mem_nil, or_false] at hls
    obtain rfl | rfl | rfl := hls <;> exact rebound_of_mem hmem

theorem bind_applyBind : server.applyBind.bind = server.bind := by
  rw [applyBind]
  split <;> rfl

theorem inheritsDefaultBind_applyBind :
    (server.inheritDefaultBind defaultBind).applyBind.inheritsDefaultBind defaultBind = false := by
  rw [inheritDefaultBind]
  split
  · next h =>
    rw [inheritsDefaultBind, bind_applyBind]
    cases hdef : defaultBind.head? with
    | none => simp
    | some bind => simp
  · next h =>
    cases hbind : server.bind with
    | none =>
      have hsm : server.applyBind = server := by rw [applyBind, bindHost, hbind]; rfl
      rw [hsm]
      exact Bool.eq_false_iff.mpr h
    | some bind => rw [inheritsDefaultBind, bind_applyBind, hbind]; rfl

end ServerConfig

namespace ListenerConfig

theorem changes_eq_false_iff {config : ListenerConfig} : config.changes = false ↔
    ∀ server ∈ config.servers, server.inheritsDefaultBind config.defaultBind = false ∧
      server.bindChangesListeners = false := by
  simp [changes]

theorem changes_bound (config : ListenerConfig) : config.bound.changes = false := by
  rw [changes_eq_false_iff]
  intro server hsrv
  obtain ⟨server, -, rfl⟩ := mem_map.mp hsrv
  exact ⟨ServerConfig.inheritsDefaultBind_applyBind, ServerConfig.bindChangesListeners_applyBind⟩

theorem bound_eq_self_iff {config : ListenerConfig} (h : config.changes = false) :
    config.bound = config ↔ ∀ server ∈ config.servers, ∀ host ∈ server.bindHost,
      ∀ list ∈ server.addressLists, list.Nodup := by
  rw [changes_eq_false_iff] at h
  have hsrv (server) (hsrv : server ∈ config.servers) :
      (server.inheritDefaultBind config.defaultBind).applyBind = server ↔
        ∀ host ∈ server.bindHost, ∀ list ∈ server.addressLists, list.Nodup := by
    rw [ServerConfig.inheritDefaultBind, (h server hsrv).1]
    exact ServerConfig.applyBind_eq_self_iff (h server hsrv).2
  have hservers : config.bound = config ↔ config.servers.map (fun server =>
      (server.inheritDefaultBind config.defaultBind).applyBind) = config.servers.map id := by
    rw [map_id]
    exact ⟨congrArg fun config : ListenerConfig => config.servers, fun h => by rw [bound, h]⟩
  rw [hservers, map_inj_left]
  exact forall₂_congr hsrv

/-- A configuration is answered with every site on its interface if some site asks for a change, or
if no site that names an interface repeats an address. The answer asks for no other. -/
theorem bindListeners_eq_iff (config : ListenerConfig) :
    (config.bindListeners = config.bound ↔
      (∃ server ∈ config.servers, server.inheritsDefaultBind config.defaultBind = true ∨
        ∃ host ∈ server.bindHost, ∃ list ∈ server.addressLists, ∃ address ∈ list,
          rebound host address ≠ address) ∨
      ∀ server ∈ config.servers, ∀ host ∈ server.bindHost, ∀ list ∈ server.addressLists,
        list.Nodup) ∧
    config.bindListeners.bindListeners = config.bindListeners := by
  have hch : config.changes = true ↔ ∃ server ∈ config.servers,
      server.inheritsDefaultBind config.defaultBind = true ∨
        ∃ host ∈ server.bindHost, ∃ list ∈ server.addressLists, ∃ address ∈ list,
          rebound host address ≠ address := by
    rw [← Bool.not_eq_false, changes_eq_false_iff]
    simp only [ServerConfig.bindChangesListeners_eq_false_iff]
    push Not
    simp [or_iff_not_imp_left]
  rw [← hch]
  cases h : config.changes with
  | true => simp [bindListeners, h, changes_bound]
  | false =>
    simp only [bindListeners, h, Bool.false_eq_true, if_false, false_or, and_true]
    exact eq_comm.trans (bound_eq_self_iff h)

def repeated : ListenerConfig where
  httpPort := 80
  httpsPort := 443
  listenerOptions := []
  servers := [⟨none, some (ascii "127.0.0.1"), false,
    [ascii "127.0.0.1:8080", ascii "127.0.0.1:8080"], [], []⟩]
  defaultBind := []

/-- The second of the two is not taken away. -/
theorem bindListeners_ne_repeated : repeated.bindListeners ≠ repeated.bound := by
  intro h
  have hlsn := congrArg (fun config => config.servers.map ServerConfig.listen) h
  exact absurd hlsn (by decide)

end ListenerConfig

end Pingclair
