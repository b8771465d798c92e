import Pingclair.Lib.Fallible
import Pingclair.Lib.SocketAddress

/-!
# One port, one listener

Sites name the addresses that they listen on. A system binds a wildcard socket on a port only when
no socket that it covers is bound there, so that an address which a wildcard of some site covers is
folded into it: the site is served through the wildcard's socket instead.
-/

namespace Pingclair

open ByteText Numerals IpAddr Fallible List

/-- What a configuration says of a site's listeners. `tls` is whether it configures TLS. -/
structure ServerConfig where
  name : Option Bytes
  bind : Option Bytes
  tls : Bool
  listen : List Bytes
  plaintextListen : List Bytes
  proxyProtocolListen : List Bytes

/-- The listener options are given by the addresses of their blocks. -/
structure PingclairConfig where
  httpPort : UInt16
  httpsPort : UInt16
  listenerOptions : List Bytes
  servers : List ServerConfig

/-- A bare port stands for every interface. -/
def normalizeListenAddr (addr : Bytes) : Bytes :=
  match addr.dropPrefix? [colon] with
  | some port => ascii "[::]:" ++ port
  | none => addr

def bindSocketHost (bind : Bytes) : Option Bytes :=
  if bind = [] then none
  else
    match parseWith readIpv6Addr bind with
    | some ipv6 => some (ascii "[" ++ ipv6Text ipv6 ++ ascii "]")
    | none => some bind

def ServerConfig.listenAddresses (server : ServerConfig) (httpPort httpsPort : UInt16) :
    List Bytes :=
  if server.listen = [] then
    let host := (server.bind.bind bindSocketHost).getD (ascii "[::]")
    let port := if server.tls then httpsPort else httpPort
    [host ++ colon :: decimal port.toNat]
  else server.listen.map normalizeListenAddr

def ServerConfig.restricted (server : ServerConfig) : Bool := server.bind.any (· ≠ [])

def PingclairConfig.addressesOf (config : PingclairConfig) (server : ServerConfig) : List Bytes :=
  server.listenAddresses config.httpPort config.httpsPort

def PingclairConfig.addresses (config : PingclairConfig) : List Bytes :=
  config.servers.flatMap config.addressesOf

/-- The wildcard on the same port that would receive a socket's traffic. -/
def covering (specific : SocketAddress) (wildcards : List SocketAddress) : Option SocketAddress :=
  let onPort := wildcards.filter fun wildcard => wildcard.port = specific.port
  let ipv4Wildcard := onPort.find? fun wildcard => wildcard.ip.isV4
  let ipv6Wildcard := onPort.find? fun wildcard => !wildcard.ip.isV4
  match specific.ip.isV4, specific.ip.isUnspecified with
  | false, true => none
  | true, true => ipv6Wildcard
  | true, false => ipv6Wildcard <|> ipv4Wildcard
  | false, false => ipv6Wildcard

def coveringWildcard (address : Bytes) (wildcards : List SocketAddress) : Option SocketAddress :=
  (SocketAddress.parse address).bind fun specific => covering specific wildcards

structure FoldedListener where
  specific : Bytes
  wildcard : Bytes
  deriving DecidableEq

structure SharedPortConflict where
  message : Bytes
  deriving DecidableEq

structure SharedPortFold where
  folded : List FoldedListener
  deriving DecidableEq

namespace SharedPortFold

def restrictedConflict (server : ServerConfig) (address : Bytes) (wildcard : SocketAddress) :
    SharedPortConflict where
  message := ascii "site " ++ server.name.getD (ascii "_") ++ ascii " is restricted to " ++
    address ++ ascii " by `bind`, but port " ++ decimal wildcard.port.toNat ++
    ascii " also has the wildcard listener " ++ wildcard.toText ++
    ascii "; one port is one socket, so the site would become reachable on interfaces `bind` " ++
    ascii "excluded. Bind every site on that port to the same addresses, or move the restricted " ++
    ascii "site to another port"

def addressedConflict (key : Bytes) (fold : FoldedListener) : SharedPortConflict where
  message := ascii "`servers " ++ key ++ ascii " \x7b " ++ [0xE2, 0x80, 0xA6] ++
    ascii " \x7d` configures " ++ key ++
    ascii ", but that address shares its port with the wildcard listener " ++ fold.wildcard ++
    ascii " and is served through it; address the block to " ++ fold.wildcard ++ ascii " instead"

def wildcards (config : PingclairConfig) (extraWildcards : List Bytes) : List SocketAddress :=
  ((config.addresses ++ extraWildcards.map normalizeListenAddr).filterMap
    SocketAddress.parse).filter fun address => address.ip.isUnspecified

def planAddress (wildcards : List SocketAddress) (folded : List FoldedListener)
    (listener : ServerConfig × Bytes) : Except SharedPortConflict (List FoldedListener) :=
  match coveringWildcard listener.2 wildcards with
  | none => .ok folded
  | some wildcard =>
    if listener.1.restricted then .error (restrictedConflict listener.1 listener.2 wildcard)
    else if folded.any (·.specific = listener.2) then .ok folded
    else .ok (folded ++ [⟨listener.2, wildcard.toText⟩])

def findFold (folded : List FoldedListener) (address : Bytes) : Option FoldedListener :=
  folded.find? (·.specific = normalizeListenAddr address)

def checkOptions (folded : List FoldedListener) (keys : List Bytes) :
    Except SharedPortConflict Unit :=
  match keys.findSome? fun key => (findFold folded key).map (key, ·) with
  | some (key, fold) => .error (addressedConflict key fold)
  | none => .ok ()

def listeners (config : PingclairConfig) : List (ServerConfig × Bytes) :=
  config.servers.flatMap fun server => (config.addressesOf server).map (server, ·)

def plan (config : PingclairConfig) (extraWildcards : List Bytes) :
    Except SharedPortConflict SharedPortFold :=
  let wildcards := wildcards config extraWildcards
  if wildcards = [] then .ok ⟨[]⟩
  else do
    let folded ← (listeners config).foldlM (planAddress wildcards) []
    checkOptions folded config.listenerOptions
    pure ⟨folded⟩

def next (fold : SharedPortFold) (address : Bytes) : Bytes :=
  match findFold fold.folded address with
  | some folded => folded.wildcard
  | none => address

def push (rewritten : List Bytes) (next : Bytes) : List Bytes :=
  if rewritten.any fun known => normalizeListenAddr known = normalizeListenAddr next then rewritten
  else rewritten ++ [next]

def rewrite (fold : SharedPortFold) (addresses : List Bytes) : List Bytes :=
  addresses.foldl (fun rewritten address => push rewritten (fold.next address)) []

def applyTo (fold : SharedPortFold) (server : ServerConfig) : ServerConfig :=
  { server with
    listen := fold.rewrite server.listen
    plaintextListen := fold.rewrite server.plaintextListen
    proxyProtocolListen := fold.rewrite server.proxyProtocolListen }

def apply (fold : SharedPortFold) (config : PingclairConfig) : PingclairConfig :=
  if fold.folded.isEmpty then config
  else { config with servers := config.servers.map fold.applyTo }

end SharedPortFold

/-- A wildcard that the system does not bind beside another socket. -/
def Collides (wildcard other : SocketAddress) : Prop :=
  wildcard.port = other.port ∧ wildcard.ip ≠ other.ip ∧ wildcard.ip.isUnspecified = true ∧
    (wildcard.ip.isV4 = true → other.ip.isV4 = true)

theorem eq_of_isUnspecified {a b : IpAddr} (ha : a.isUnspecified = true)
    (hb : b.isUnspecified = true) (h : a.isV4 = b.isV4) : a = b := by
  cases a with
  | v4 octets =>
    cases b with
    | v4 octets' => rw [of_decide_eq_true ha, of_decide_eq_true hb]
    | v6 ss => simp [isV4] at h
  | v6 ss =>
    cases b with
    | v4 octets => simp [isV4] at h
    | v6 ss' => rw [of_decide_eq_true ha, of_decide_eq_true hb]

variable {wildcard : SocketAddress}

theorem collides_iff_of_wildcard {o : SocketAddress} (hwc : wildcard.ip.isUnspecified = true)
    (ho : o.ip.isUnspecified = true) :
    Collides wildcard o ↔ wildcard.port = o.port ∧ wildcard.ip.isV4 = false ∧ o.ip.isV4 = true := by
  have hne : wildcard.ip ≠ o.ip ↔ wildcard.ip.isV4 ≠ o.ip.isV4 :=
    not_congr ⟨fun h => h ▸ rfl, eq_of_isUnspecified hwc ho⟩
  rw [Collides, hne]
  cases wildcard.ip.isV4 <;> cases o.ip.isV4 <;> simp [hwc]

theorem collides_iff_of_specific {o : SocketAddress} (hwc : wildcard.ip.isUnspecified = true)
    (ho : o.ip.isUnspecified = false) :
    Collides wildcard o ↔
      wildcard.port = o.port ∧ (wildcard.ip.isV4 = true → o.ip.isV4 = true) := by
  have hne : wildcard.ip ≠ o.ip := by
    intro h
    rw [h, ho] at hwc
    simp at hwc
  simp [Collides, hne, hwc]

/-- A socket is left alone exactly when no wildcard collides with it. -/
theorem covering_eq_none_iff {specific : SocketAddress} {wildcards : List SocketAddress}
    (hws : ∀ w ∈ wildcards, w.ip.isUnspecified = true) :
    covering specific wildcards = none ↔ ∀ w ∈ wildcards, ¬Collides w specific := by
  cases hspc : specific.ip.isUnspecified with
  | true =>
    have hcol : (∀ w ∈ wildcards, ¬Collides w specific) ↔ ∀ w ∈ wildcards,
        ¬(w.port = specific.port ∧ w.ip.isV4 = false ∧ specific.ip.isV4 = true) :=
      forall₂_congr fun w hw => not_congr (collides_iff_of_wildcard (hws w hw) hspc)
    rw [hcol, covering, hspc]
    cases specific.ip.isV4 <;> simp
  | false =>
    have hcol : (∀ w ∈ wildcards, ¬Collides w specific) ↔ ∀ w ∈ wildcards,
        ¬(w.port = specific.port ∧ (w.ip.isV4 = true → specific.ip.isV4 = true)) :=
      forall₂_congr fun w hw => not_congr (collides_iff_of_specific (hws w hw) hspc)
    rw [hcol, covering, hspc]
    cases specific.ip.isV4 with
    | false => simp
    | true =>
      simp only [Option.orElse_eq_orElse, Option.orElse_eq_or, Option.or_eq_none_iff,
        List.find?_eq_none, mem_filter, decide_eq_true_eq, Bool.not_eq_true', and_imp]
      constructor
      · rintro ⟨hv6, hv4⟩ w hw ⟨hpt, -⟩
        cases hfam : w.ip.isV4 with
        | true => exact hv4 w hw hpt hfam
        | false => exact hv6 w hw hpt hfam
      · intro h
        exact ⟨fun w hw hpt _ => h w hw ⟨hpt, fun _ => trivial⟩,
          fun w hw hpt _ => h w hw ⟨hpt, fun _ => trivial⟩⟩

/-- The wildcard that covers a socket is itself left alone. -/
theorem not_collides_covering {specific : SocketAddress} {wildcards : List SocketAddress}
    (hws : ∀ w ∈ wildcards, w.ip.isUnspecified = true)
    (h : covering specific wildcards = some wildcard) :
    wildcard ∈ wildcards ∧ ∀ w ∈ wildcards, ¬Collides w wildcard := by
  have halone {w : SocketAddress} (hw : w ∈ wildcards)
      (hfam : ∀ w' ∈ wildcards, w'.port = w.port → w'.ip.isV4 = false → w.ip.isV4 = false) :
      w ∈ wildcards ∧ ∀ w' ∈ wildcards, ¬Collides w' w := by
    refine ⟨hw, fun w' hw' hcol => ?_⟩
    rw [collides_iff_of_wildcard (hws w' hw') (hws w hw)] at hcol
    obtain ⟨hpt, hv6, hv4⟩ := hcol
    rw [hfam w' hw' hpt hv6] at hv4
    simp at hv4
  have hipv6 {w : SocketAddress} (h : (wildcards.filter fun w => w.port = specific.port).find?
      (fun w => !w.ip.isV4) = some w) : w ∈ wildcards ∧ ∀ w' ∈ wildcards, ¬Collides w' w := by
    have hv6 := List.find?_some h
    rw [Bool.not_eq_true'] at hv6
    exact halone (mem_filter.mp (mem_of_find?_eq_some h)).1 fun _ _ _ _ => hv6
  rw [covering] at h
  split at h
  · simp at h
  · exact hipv6 h
  · -- an IPv4 wildcard is taken only when its port has no other
    rw [Option.orElse_eq_orElse, Option.orElse_eq_or, Option.or_eq_some_iff] at h
    obtain h | ⟨hnone, h⟩ := h
    · exact hipv6 h
    · obtain ⟨hmem, hpt⟩ := mem_filter.mp (mem_of_find?_eq_some h)
      refine halone hmem fun w' hw' hpt' hv6 => ?_
      rw [List.find?_eq_none] at hnone
      have := hnone w' (mem_filter.mpr ⟨hw', by rw [hpt']; exact hpt⟩)
      exact absurd hv6 (by simpa using this)
  · exact hipv6 h

theorem coveringWildcard_eq_none_iff {address : Bytes} {wildcards : List SocketAddress}
    (hws : ∀ w ∈ wildcards, w.ip.isUnspecified = true) :
    coveringWildcard address wildcards = none ↔
      ∀ socket, SocketAddress.parse address = some socket →
        ∀ w ∈ wildcards, ¬Collides w socket := by
  rw [coveringWildcard, Option.bind_eq_none_iff]
  exact forall₂_congr fun _ _ => covering_eq_none_iff hws

namespace SharedPortFold

variable {config : PingclairConfig} {extras : List Bytes} {fold : SharedPortFold}

theorem isUnspecified_of_mem_wildcards : ∀ w ∈ wildcards config extras, w.ip.isUnspecified = true :=
  fun _ hw => (mem_filter.mp hw).2

/-- Of some listeners those that a wildcard covers are folded, and none of a restricted site. -/
structure Collected (ws : List SocketAddress) (done : List (ServerConfig × Bytes))
    (folded : List FoldedListener) : Prop where
  covered : ∀ listener ∈ done, ∀ w, coveringWildcard listener.2 ws = some w →
    listener.1.restricted = false ∧ ∃ f ∈ folded, f.specific = listener.2
  folds : ∀ f ∈ folded, ∃ w, coveringWildcard f.specific ws = some w ∧ f.wildcard = w.toText

theorem Collected.step {ws : List SocketAddress} {done : List (ServerConfig × Bytes)}
    {folded folded' : List FoldedListener} {lis : ServerConfig × Bytes}
    (hdn : Collected ws done folded) (h : planAddress ws folded lis = .ok folded') :
    Collected ws (done ++ [lis]) folded' := by
  -- it is enough that this listener is dealt with, and that no fold is lost
  have hla (hlis : ∀ w, coveringWildcard lis.2 ws = some w →
        lis.1.restricted = false ∧ ∃ f ∈ folded', f.specific = lis.2)
      (hkp : ∀ f ∈ folded, f ∈ folded') {other : ServerConfig × Bytes}
      (ho : other ∈ done ++ [lis]) (w : SocketAddress)
      (hw : coveringWildcard other.2 ws = some w) :
      other.1.restricted = false ∧ ∃ f ∈ folded', f.specific = other.2 := by
    obtain ho | ho := mem_append.mp ho
    · obtain ⟨hfree, f, hf, hspc⟩ := hdn.covered other ho w hw
      exact ⟨hfree, f, hkp f hf, hspc⟩
    · obtain rfl := mem_singleton.mp ho
      exact hlis w hw
  unfold planAddress at h
  split at h
  · next hnone =>
    cases h
    exact ⟨fun _ => hla (fun w hw => absurd hw (by simp [hnone])) fun _ => id, hdn.folds⟩
  · next wildcard hs =>
    split at h
    · simp at h
    · next hfree =>
      rw [Bool.not_eq_true] at hfree
      split at h
      · next hkn =>
        cases h
        simp only [any_eq_true, decide_eq_true_eq] at hkn
        exact ⟨fun _ => hla (fun _ _ => ⟨hfree, hkn⟩) fun _ => id, hdn.folds⟩
      · cases h
        refine ⟨fun _ => hla (fun _ _ => ⟨hfree, ⟨lis.2, wildcard.toText⟩,
          mem_append_right _ (mem_singleton_self _), rfl⟩)
          fun f hf => mem_append_left _ hf, fun f hf => ?_⟩
        obtain hf | hf := mem_append.mp hf
        · exact hdn.folds f hf
        · obtain rfl := mem_singleton.mp hf
          exact ⟨wildcard, hs, rfl⟩

theorem plan_spec (h : plan config extras = .ok fold) :
    Collected (wildcards config extras) (listeners config) fold.folded := by
  rw [plan] at h
  split at h
  · next hni =>
    cases h
    refine ⟨fun l _ w hw => ?_, by simp⟩
    -- no wildcard, and so nothing that is covered
    have hnone : coveringWildcard l.2 (wildcards config extras) = none := by
      rw [coveringWildcard_eq_none_iff isUnspecified_of_mem_wildcards, hni]
      simp
    simp [hnone] at hw
  · obtain ⟨folded, hfolded, h⟩ := bind_eq_ok.mp h
    obtain ⟨-, -, h⟩ := bind_eq_ok.mp h
    cases h
    exact foldlM_invariant Collected.step ⟨by simp, by simp⟩ hfolded

/-- A configuration whose addresses no wildcard covers is left as it is. -/
theorem plan_of_alone (h : ∀ address ∈ config.addresses,
    coveringWildcard address (wildcards config extras) = none) : plan config extras = .ok ⟨[]⟩ := by
  have hfolded : (listeners config).foldlM (planAddress (wildcards config extras)) [] = .ok [] := by
    have hnone : ∀ ls ∈ listeners config,
        coveringWildcard ls.2 (wildcards config extras) = none := by
      intro ls hlis
      obtain ⟨server, hsrv, hmem⟩ := mem_flatMap.mp hlis
      obtain ⟨address, had, rfl⟩ := mem_map.mp hmem
      exact h address (mem_flatMap.mpr ⟨server, hsrv, had⟩)
    generalize listeners config = rest at hnone
    induction rest with
    | nil => rfl
    | cons ls rest ih =>
      have hst : planAddress (wildcards config extras) [] ls = .ok [] := by
        rw [planAddress, hnone ls (by simp)]
      rw [foldlM_cons, hst]
      exact ih fun l hl => hnone l (by simp [hl])
  have hoptions : checkOptions [] config.listenerOptions = .ok () := by
    have hnone : (config.listenerOptions.findSome? fun key => (findFold [] key).map (key, ·)) =
        none := List.findSome?_eq_none_iff.mpr fun _ _ => rfl
    rw [checkOptions, hnone]
  rw [plan]
  split
  · rfl
  · rw [hfolded]
    exact bind_eq_ok.mpr ⟨[], rfl, bind_eq_ok.mpr ⟨(), hoptions, rfl⟩⟩

variable {address q : Bytes} {server : ServerConfig} {socket : SocketAddress}

theorem mem_push {rewritten : List Bytes} (h : q ∈ push rewritten address) :
    q ∈ rewritten ∨ q = address := by
  rw [push] at h
  split at h
  · exact .inl h
  · exact (mem_append.mp h).imp_right mem_singleton.mp

theorem push_names (rewritten : List Bytes) (address : Bytes) :
    (∀ q ∈ rewritten, q ∈ push rewritten address) ∧
      ∃ q ∈ push rewritten address, normalizeListenAddr q = normalizeListenAddr address := by
  rw [push]
  split
  · next hkn =>
    simp only [any_eq_true, decide_eq_true_eq] at hkn
    exact ⟨fun _ => id, hkn⟩
  · exact ⟨fun q hq => mem_append_left _ hq, address,
      mem_append_right _ (mem_singleton_self _), rfl⟩

theorem exists_of_mem_rewrite {addresses : List Bytes} (h : q ∈ fold.rewrite addresses) :
    ∃ p ∈ addresses, q = fold.next p := by
  induction addresses using List.reverseRecOn with
  | nil => simp [rewrite] at h
  | append_singleton addresses address ih =>
    rw [rewrite, foldl_concat] at h
    obtain h | rfl := mem_push h
    · obtain ⟨p, hp, rfl⟩ := ih h
      exact ⟨p, mem_append_left _ hp, rfl⟩
    · exact ⟨address, by simp, rfl⟩

def Names (addresses : List Bytes) (address : Bytes) : Prop :=
  ∃ known ∈ addresses, normalizeListenAddr known = normalizeListenAddr address

theorem names_rewrite {addresses : List Bytes} {p : Bytes} (h : p ∈ addresses) :
    Names (fold.rewrite addresses) (fold.next p) := by
  induction addresses using List.reverseRecOn with
  | nil => simp at h
  | append_singleton addresses address ih =>
    obtain ⟨hkp, hla⟩ := push_names (fold.rewrite addresses) (fold.next address)
    have hrewrite : fold.rewrite (addresses ++ [address]) =
        push (fold.rewrite addresses) (fold.next address) := by
      rw [rewrite, foldl_concat, rewrite]
    rw [hrewrite]
    obtain h | h := mem_append.mp h
    · obtain ⟨q, hq, hn⟩ := ih h
      exact ⟨q, hkp q hq, hn⟩
    · rw [mem_singleton.mp h]
      exact hla

structure Rewritten (fold : SharedPortFold) (before after : List Bytes) : Prop where
  origin : ∀ q ∈ after, ∃ p ∈ before, q = fold.next p
  names : ∀ p ∈ before, Names after (fold.next p)

def addressLists : List (ServerConfig → List Bytes) :=
  [ServerConfig.listen, ServerConfig.plaintextListen, ServerConfig.proxyProtocolListen]

theorem next_of_isEmpty (h : fold.folded.isEmpty = true) (address : Bytes) :
    fold.next address = address := by
  rw [next, isEmpty_iff.mp h]
  rfl

theorem rewritten_rewrite (fold : SharedPortFold) (addresses : List Bytes) :
    Rewritten fold addresses (fold.rewrite addresses) :=
  ⟨fun _ => exists_of_mem_rewrite, fun _ => names_rewrite⟩

theorem rewritten_apply {i : Nat} {before after : ServerConfig}
    (hb : config.servers[i]? = some before) (haf : (fold.apply config).servers[i]? = some after) :
    ∀ list ∈ addressLists, Rewritten fold (list before) (list after) := by
  rw [apply] at haf
  split at haf
  · next hem =>
    rw [hb] at haf
    cases haf
    intro list _
    refine ⟨fun q hq => ⟨q, hq, (next_of_isEmpty hem q).symm⟩, fun p hp => ⟨p, hp, ?_⟩⟩
    rw [next_of_isEmpty hem]
  · rw [List.getElem?_map, hb] at haf
    cases haf
    simp only [addressLists, mem_cons, not_mem_nil, or_false, forall_eq_or_imp, forall_eq]
    exact ⟨rewritten_rewrite _ _, rewritten_rewrite _ _, rewritten_rewrite _ _⟩

theorem normalize_next_congr {p : Bytes} (h : normalizeListenAddr p = normalizeListenAddr q) :
    normalizeListenAddr (fold.next p) = normalizeListenAddr (fold.next q) := by
  rw [next, next, findFold, findFold, h]
  split
  · rfl
  · exact h

theorem normalize_toText {w : SocketAddress} (hw : w.ip.isUnspecified = true) :
    normalizeListenAddr w.toText = w.toText := by
  have hhd : w.toText.dropPrefix? [colon] = none := by
    cases w with
    | v4 address port =>
      obtain rfl : address = #v[0, 0, 0, 0] := of_decide_eq_true hw
      rfl
    | v6 address s port => rfl
  rw [normalizeListenAddr, hhd]

/-! ### The sockets of a folded configuration -/

theorem specific_of_findFold {folded : List FoldedListener} {f : FoldedListener}
    (h : findFold folded address = some f) :
    f ∈ folded ∧ f.specific = normalizeListenAddr address := by
  refine ⟨mem_of_find?_eq_some h, ?_⟩
  have := List.find?_some h
  exact of_decide_eq_true this

theorem mem_listeners (hsrv : server ∈ config.servers) (had : address ∈ config.addressesOf server) :
    (server, address) ∈ listeners config :=
  mem_flatMap.mpr ⟨server, hsrv, mem_map.mpr ⟨address, had, rfl⟩⟩

/-- A socket that no wildcard collides with, and that is counted if it is one itself. -/
def Settled (ws : List SocketAddress) (socket : SocketAddress) : Prop :=
  (∀ w ∈ ws, ¬Collides w socket) ∧ (socket.ip.isUnspecified = true → socket ∈ ws)

theorem Settled.not_collides {ws : List SocketAddress} {s t : SocketAddress} (hs : Settled ws s)
    (ht : Settled ws t) : ¬Collides s t := fun h => ht.1 s (hs.2 h.2.2.1) h

theorem settled_of_coveringWildcard
    (hmem : address ∈ config.addresses ++ extras.map normalizeListenAddr)
    (hnone : coveringWildcard address (wildcards config extras) = none)
    (hps : SocketAddress.parse address = some socket) :
    Settled (wildcards config extras) socket := by
  rw [coveringWildcard_eq_none_iff isUnspecified_of_mem_wildcards] at hnone
  exact ⟨hnone socket hps, fun hwc =>
    mem_filter.mpr ⟨mem_filterMap.mpr ⟨address, hmem, hps⟩, hwc⟩⟩

/-- A site of the folded configuration is one of the configuration, with its lists rewritten. -/
theorem exists_before {i : Nat} {after : ServerConfig}
    (haf : (fold.apply config).servers[i]? = some after) :
    ∃ before, config.servers[i]? = some before ∧ after.bind = before.bind ∧
      after.tls = before.tls := by
  rw [apply] at haf
  split at haf
  · exact ⟨after, haf, rfl, rfl⟩
  · rw [List.getElem?_map] at haf
    obtain ⟨before, hb, rfl⟩ := Option.map_eq_some_iff.mp haf
    exact ⟨before, hb, rfl, rfl⟩

theorem addressesOf_apply (fold : SharedPortFold) (config : PingclairConfig)
    (server : ServerConfig) :
    (fold.apply config).addressesOf server = config.addressesOf server := by
  rw [apply]
  split <;> rfl

/-- The sockets of a folded configuration: those of its sites, and those that the runtime adds and
that no wildcard covers. -/
def Bound (config : PingclairConfig) (extras : List Bytes) (fold : SharedPortFold)
    (socket : SocketAddress) : Prop :=
  (∃ address ∈ (fold.apply config).addresses, SocketAddress.parse address = some socket) ∨
    ∃ extra ∈ extras, SocketAddress.parse (normalizeListenAddr extra) = some socket ∧
      coveringWildcard (normalizeListenAddr extra) (wildcards config extras) = none

/-- A configuration whose sites share their sockets. -/
structure Shares (config : PingclairConfig) (extras : List Bytes) (fold : SharedPortFold) :
    Prop where
  apart : ∀ s t, Bound config extras fold s → Bound config extras fold t → ¬Collides s t
  /-- What a restricted site listens on is not rewritten, in any list. -/
  kept : ∀ (i : Nat) (before after : ServerConfig), config.servers[i]? = some before →
    (fold.apply config).servers[i]? = some after → before.restricted = true →
      (∀ address ∈ after.listen, address ∈ before.listen) ∧
      ∀ list ∈ addressLists, ∀ address ∈ list before,
        normalizeListenAddr address ∈ config.addressesOf before → Names (list after) address
  /-- What named an address of the same site still does. -/
  named : ∀ (i : Nat) (before after : ServerConfig), config.servers[i]? = some before →
    (fold.apply config).servers[i]? = some after →
      ∀ list ∈ addressLists, ∀ address ∈ list before, Names before.listen address →
        Names (list after) (fold.next address) ∧ Names after.listen (fold.next address)
  again : plan (fold.apply config) extras = .ok ⟨[]⟩

section Planned

variable (hpn : plan config extras = .ok fold)

include hpn

/-- What an address becomes: the wildcard that covers it, or itself. -/
theorem next_cases (address : Bytes) :
    (∃ w, coveringWildcard (normalizeListenAddr address) (wildcards config extras) = some w ∧
      fold.next address = w.toText) ∨
    (findFold fold.folded address = none ∧ fold.next address = address) := by
  cases h : findFold fold.folded address with
  | none => exact .inr ⟨rfl, by rw [next, h]⟩
  | some f =>
    obtain ⟨hf, hspc⟩ := specific_of_findFold h
    obtain ⟨w, hw, ht⟩ := (plan_spec hpn).folds f hf
    exact .inl ⟨w, hspc ▸ hw, by rw [next, h]; exact ht⟩

/-- An address that a site listens on and that is not folded is not covered. -/
theorem coveringWildcard_of_findFold
    (hsrv : server ∈ config.servers) (had : normalizeListenAddr address ∈ config.addressesOf server)
    (h : findFold fold.folded address = none) :
    coveringWildcard (normalizeListenAddr address) (wildcards config extras) = none := by
  cases hcov : coveringWildcard (normalizeListenAddr address) (wildcards config extras) with
  | none => rfl
  | some w =>
    obtain ⟨-, f, hf, hspc⟩ := (plan_spec hpn).covered _ (mem_listeners hsrv had) w hcov
    rw [findFold, List.find?_eq_none] at h
    exact absurd (decide_eq_true hspc) (h f hf)

/-- An address that a restricted site listens on is not rewritten. -/
theorem next_of_restricted (hsrv : server ∈ config.servers) (hrst : server.restricted = true)
    (had : normalizeListenAddr address ∈ config.addressesOf server) :
    fold.next address = address := by
  obtain ⟨w, hw, -⟩ | ⟨-, h⟩ := next_cases hpn address
  · have hfree := ((plan_spec hpn).covered _ (mem_listeners hsrv had) w hw).1
    simp [hfree] at hrst
  · exact h

/-- A site without addresses of its own listens on one that no wildcard covers. -/
theorem coveringWildcard_of_derived (hsrv : server ∈ config.servers) (hlsn : server.listen = [])
    (had : address ∈ config.addressesOf server) :
    coveringWildcard address (wildcards config extras) = none := by
  cases hcov : coveringWildcard address (wildcards config extras) with
  | none => rfl
  | some w =>
    have hfree := ((plan_spec hpn).covered _ (mem_listeners hsrv had) w hcov).1
    have hh : (server.bind.bind bindSocketHost).getD (ascii "[::]") = ascii "[::]" := by
      cases hbind : server.bind with
      | none => rfl
      | some bind =>
        rw [ServerConfig.restricted, hbind] at hfree
        obtain rfl : bind = [] := by simpa using hfree
        rfl
    rw [PingclairConfig.addressesOf, ServerConfig.listenAddresses, if_pos hlsn, hh,
      mem_singleton] at had
    -- it is the IPv6 wildcard of its port
    have hps : SocketAddress.parse address = some (.v6 #v[0, 0, 0, 0, 0, 0, 0, 0] 0
        (if server.tls then config.httpsPort else config.httpPort)) := by
      rw [had]
      exact SocketAddress.parse_any _
    rw [coveringWildcard, hps] at hcov
    simp [covering, SocketAddress.ip, isV4, isUnspecified] at hcov

theorem settled_next (hsrv : server ∈ config.servers) (hlsn : address ∈ server.listen)
    (hps : SocketAddress.parse (normalizeListenAddr (fold.next address)) = some socket) :
    Settled (wildcards config extras) socket := by
  have had : normalizeListenAddr address ∈ config.addressesOf server := by
    rw [PingclairConfig.addressesOf, ServerConfig.listenAddresses, if_neg (ne_nil_of_mem hlsn)]
    exact mem_map.mpr ⟨address, hlsn, rfl⟩
  obtain ⟨w, hw, hnx⟩ | ⟨hfo, hnx⟩ := next_cases hpn address
  · obtain ⟨s, -, hw⟩ := Option.bind_eq_some_iff.mp hw
    obtain ⟨hmem, halone⟩ := not_collides_covering isUnspecified_of_mem_wildcards hw
    have hwc := isUnspecified_of_mem_wildcards w hmem
    rw [hnx, normalize_toText hwc, SocketAddress.parse_toText hwc] at hps
    cases hps
    exact ⟨halone, fun _ => hmem⟩
  · rw [hnx] at hps
    refine settled_of_coveringWildcard (mem_append_left _ ?_)
      (coveringWildcard_of_findFold hpn hsrv had hfo) hps
    exact mem_flatMap.mpr ⟨server, hsrv, had⟩

theorem settled_apply (had : address ∈ (fold.apply config).addresses)
    (hps : SocketAddress.parse address = some socket) :
    Settled (wildcards config extras) socket := by
  obtain ⟨after, haf, had⟩ := mem_flatMap.mp had
  obtain ⟨i, hi⟩ := mem_iff_getElem?.mp haf
  obtain ⟨before, hb, hbind, htls⟩ := exists_before hi
  have hlsts := rewritten_apply hb hi ServerConfig.listen (by simp [addressLists])
  have hsrv : before ∈ config.servers := mem_of_getElem? hb
  rw [addressesOf_apply, PingclairConfig.addressesOf, ServerConfig.listenAddresses] at had
  split at had
  · -- a derived address is the one that the site had
    next hni =>
    have hlsn : before.listen = [] := by
      rw [eq_nil_iff_forall_not_mem]
      intro p hp
      obtain ⟨q, hq, -⟩ := hlsts.names p hp
      simp [hni] at hq
    have hderived : address ∈ config.addressesOf before := by
      rw [PingclairConfig.addressesOf, ServerConfig.listenAddresses, if_pos hlsn, ← hbind, ← htls]
      exact had
    refine settled_of_coveringWildcard (mem_append_left _ ?_)
      (coveringWildcard_of_derived hpn hsrv hlsn hderived) hps
    exact mem_flatMap.mpr ⟨before, hsrv, hderived⟩
  · obtain ⟨q, hq, rfl⟩ := mem_map.mp had
    obtain ⟨p, hp, rfl⟩ := hlsts.origin q hq
    exact settled_next hpn hsrv hp hps

theorem wildcards_apply :
    ∀ w ∈ wildcards (fold.apply config) extras, w ∈ wildcards config extras := by
  intro w hw
  obtain ⟨hw, hwc⟩ := mem_filter.mp hw
  obtain ⟨address, had, hps⟩ := mem_filterMap.mp hw
  obtain had | had := mem_append.mp had
  · exact (settled_apply hpn had hps).2 hwc
  · exact mem_filter.mpr ⟨mem_filterMap.mpr ⟨address, mem_append_right _ had, hps⟩, hwc⟩

theorem plan_apply : plan (fold.apply config) extras = .ok ⟨[]⟩ := by
  apply plan_of_alone
  intro address had
  rw [coveringWildcard_eq_none_iff isUnspecified_of_mem_wildcards]
  intro socket hps w hw
  exact (settled_apply hpn had hps).1 w (wildcards_apply hpn w hw)

theorem bound_settled (h : Bound config extras fold socket) :
    Settled (wildcards config extras) socket := by
  obtain ⟨address, had, hps⟩ | ⟨e, hextra, hps, hnone⟩ := h
  · exact settled_apply hpn had hps
  · exact settled_of_coveringWildcard (mem_append_right _ (mem_map.mpr ⟨e, hextra, rfl⟩)) hnone hps

end Planned

/-- The sites of a configuration that can be folded share their sockets. -/
theorem shares (config : PingclairConfig) (extras : List Bytes) (fold : SharedPortFold)
    (hplan : plan config extras = .ok fold) : Shares config extras fold where
  apart s t hs ht := (bound_settled hplan hs).not_collides (bound_settled hplan ht)
  kept i before after hb haf hrst := by
    have hlsts := rewritten_apply hb haf
    have hnx {address : Bytes} (h : normalizeListenAddr address ∈ config.addressesOf before) :
        fold.next address = address :=
      next_of_restricted hplan (mem_of_getElem? hb) hrst h
    constructor
    · intro address had
      obtain ⟨p, hp, rfl⟩ := (hlsts _ (by simp [addressLists])).origin address had
      rw [hnx]
      · exact hp
      · rw [PingclairConfig.addressesOf, ServerConfig.listenAddresses, if_neg (ne_nil_of_mem hp)]
        exact mem_map.mpr ⟨p, hp, rfl⟩
    · intro l hls address had hlistened
      have := (hlsts l hls).names address had
      rwa [hnx hlistened] at this
  named i before after hb haf l hls address had := by
    rintro ⟨k, hkn, hn⟩
    have hlsts := rewritten_apply hb haf
    obtain ⟨q, hq, hq'⟩ := (hlsts ServerConfig.listen (by simp [addressLists])).names k hkn
    exact ⟨(hlsts l hls).names address had, q, hq, hq'.trans (normalize_next_congr hn)⟩
  again := plan_apply hplan

def plainSite (bind : Option Bytes) (listen : List Bytes) : ServerConfig where
  name := none
  bind
  tls := false
  listen
  plaintextListen := listen
  proxyProtocolListen := []

def literalBeside : PingclairConfig where
  httpPort := 80
  httpsPort := 443
  listenerOptions := []
  servers := [plainSite none [ascii "127.0.0.1:8080"], plainSite none [ascii ":8080"],
    plainSite (some (ascii "127.0.0.1")) [ascii "127.0.0.1:9090"]]

theorem shares_literalBeside :
    plan literalBeside [] = .ok ⟨[⟨ascii "127.0.0.1:8080", ascii "[::]:8080"⟩]⟩ ∧
      Shares literalBeside [] ⟨[⟨ascii "127.0.0.1:8080", ascii "[::]:8080"⟩]⟩ := by
  have hpn : plan literalBeside [] = .ok ⟨[⟨ascii "127.0.0.1:8080", ascii "[::]:8080"⟩]⟩ := by
    decide +kernel
  exact ⟨hpn, shares literalBeside [] _ hpn⟩

def anySite : PingclairConfig where
  httpPort := 80
  httpsPort := 443
  listenerOptions := []
  servers := [plainSite none [ascii ":80"]]

/-- A wildcard that the runtime adds is not folded into the one of a site. -/
theorem collides_extra :
    plan anySite [ascii "0.0.0.0:80"] = .ok ⟨[]⟩ ∧
      ascii "[::]:80" ∈ ((⟨[]⟩ : SharedPortFold).apply anySite).addresses ∧
      ∃ s t, SocketAddress.parse (ascii "[::]:80") = some s ∧
        SocketAddress.parse (ascii "0.0.0.0:80") = some t ∧ t.ip.isUnspecified = true ∧
          Collides s t := by
  refine ⟨by decide +kernel, by decide +kernel, .v6 #v[0, 0, 0, 0, 0, 0, 0, 0] 0 80,
    .v4 #v[0, 0, 0, 0] 80, by decide +kernel, by decide +kernel, rfl, rfl, ?_, rfl, ?_⟩
  · simp [SocketAddress.ip]
  · simp [SocketAddress.ip, isV4]

end SharedPortFold

end Pingclair
