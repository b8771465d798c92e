import Mathlib.Data.List.Lex
import Mathlib.Data.Vector.Basic
import Pingclair.Lib.Cidr
import Pingclair.Lib.Fallible
import Pingclair.Lib.SocketAddress

/-!
# Destinations that an answer may name

An answer of the DNS may name public addresses, and those inside a range that was allowed. It may
not name one of the process's own listeners. Loopback and link-local addresses are allowed only by
ranges that lie inside one of these classes.

An IPv4 address may be written as an IPv6 one; both are the same address here.
-/

namespace Pingclair.AddressPolicy

open ByteText Cidr Fallible

def value4 (octets : Vector UInt8 4) : Nat :=
  (octets.get 0).toNat * 16777216 + (octets.get 1).toNat * 65536 + (octets.get 2).toNat * 256 +
    (octets.get 3).toNat

def value6 (s : Vector UInt16 8) : Nat :=
  (s.get 0).toNat * 5192296858534827628530496329220096 +
    (s.get 1).toNat * 79228162514264337593543950336 +
    (s.get 2).toNat * 1208925819614629174706176 + (s.get 3).toNat * 18446744073709551616 +
    (s.get 4).toNat * 281474976710656 + (s.get 5).toNat * 4294967296 +
    (s.get 6).toNat * 65536 + (s.get 7).toNat

def high (group : UInt16) : UInt8 := (group / 256).toUInt8

def low (group : UInt16) : UInt8 := group.toUInt8

def toIpv4Mapped (s : Vector UInt16 8) : Option (Vector UInt8 4) :=
  if s.get 0 = 0 ∧ s.get 1 = 0 ∧ s.get 2 = 0 ∧ s.get 3 = 0 ∧ s.get 4 = 0 ∧ s.get 5 = 0xFFFF then
    some #v[high (s.get 6), low (s.get 6), high (s.get 7), low (s.get 7)]
  else none

def toCanonical : IpAddr → IpAddr
  | .v4 octets => .v4 octets
  | .v6 segments =>
    match toIpv4Mapped segments with
    | some octets => .v4 octets
    | none => .v6 segments

def isLoopback : IpAddr → Bool
  | .v4 octets => octets.get 0 = 127
  | .v6 segments => segments = #v[0, 0, 0, 0, 0, 0, 0, 1]

def isMulticast : IpAddr → Bool
  | .v4 octets =>
    let first := octets.get 0
    224 ≤ first && first ≤ 239
  | .v6 segments => segments.get 0 &&& 0xFF00 = 0xFF00

inductive IpNet
  | v4 (block : Block 32)
  | v6 (block : Block 128)
  deriving DecidableEq

namespace IpNet

def contains : IpNet → IpAddr → Bool
  | .v4 block, .v4 octets => block.contains (value4 octets)
  | .v6 block, .v6 segments => block.contains (value6 segments)
  | .v4 _, .v6 _ | .v6 _, .v4 _ => false

def containsNet : IpNet → IpNet → Bool
  | .v4 block, .v4 other => block.containsBlock other
  | .v6 block, .v6 other => block.containsBlock other
  | .v4 _, .v6 _ | .v6 _, .v4 _ => false

def containsNetwork : IpNet → IpNet → Bool
  | .v4 block, .v4 other => block.contains other.network
  | .v6 block, .v6 other => block.contains other.network
  | .v4 _, .v6 _ | .v6 _, .v4 _ => false

end IpNet

theorem size_quad (a b c d : UInt8) : #[a, b, c, d].size = 4 := rfl

def net4 (a b c d : UInt8) (length : Fin 33) : IpNet :=
  .v4 ⟨value4 ⟨#[a, b, c, d], size_quad a b c d⟩, length.val, Nat.le_of_lt_succ length.isLt⟩

def net6 (a b c d e f : UInt16) (g h : UInt16) (length : Fin 129) : IpNet :=
  .v6 ⟨value6 #v[a, b, c, d, e, f, g, h], length.val, Nat.le_of_lt_succ length.isLt⟩

def nonpublicRanges : List IpNet :=
  [net4 0 0 0 0 8, net4 10 0 0 0 8, net4 100 64 0 0 10, net4 127 0 0 0 8, net4 169 254 0 0 16,
    net4 172 16 0 0 12, net4 192 0 0 0 24, net4 192 0 2 0 24, net4 192 88 99 0 24,
    net4 192 168 0 0 16, net4 198 18 0 0 15, net4 198 51 100 0 24, net4 203 0 113 0 24,
    net4 224 0 0 0 4, net4 240 0 0 0 4, net6 0x2001 0 0 0 0 0 0 0 23,
    net6 0x2001 0xDB8 0 0 0 0 0 0 32, net6 0x2002 0 0 0 0 0 0 0 16, net6 0x3FFF 0 0 0 0 0 0 0 20]

def publicExceptions : List IpNet :=
  [net4 192 0 0 9 32, net4 192 0 0 10 32, net6 0x64 0xFF9B 0 0 0 0 0 0 96,
    net6 0x2001 1 0 0 0 0 0 1 128, net6 0x2001 1 0 0 0 0 0 2 128, net6 0x2001 1 0 0 0 0 0 3 128,
    net6 0x2001 3 0 0 0 0 0 0 32, net6 0x2001 4 0x112 0 0 0 0 0 48, net6 0x2001 0x20 0 0 0 0 0 0 28,
    net6 0x2001 0x30 0 0 0 0 0 0 28]

def sensitiveRanges : List IpNet :=
  [net4 127 0 0 0 8, net4 169 254 0 0 16, net6 0 0 0 0 0 0 0 1 128, net6 0xFE80 0 0 0 0 0 0 0 10]

def globalV6 : IpNet := net6 0x2000 0 0 0 0 0 0 0 3

def mappedBlock : Block 128 := ⟨281470681743360, 96, Nat.le_of_ble_eq_true rfl⟩

inductive InvalidAllowance
  | notARange
  | broadlyMapped
  | broadSensitiveClass
  deriving DecidableEq

/-- A range of IPv6 addresses that stand for IPv4 ones is that range of IPv4 addresses. -/
def canonical : IpNet → Except InvalidAllowance IpNet
  | .v4 block => .ok (.v4 block)
  | .v6 block =>
    if block.contains mappedBlock.network || mappedBlock.contains block.network then
      if block.length < 96 then .error .broadlyMapped
      else .ok (.v4 ⟨block.network % 4294967296, block.length - 96,
        Nat.sub_le_iff_le_add.mpr block.length_le⟩)
    else .ok (.v6 block)

/-- Compiles a configured range. Reading its text is left to a library. -/
def allowance (parse : Bytes → Option IpNet) (text : Bytes) : Except InvalidAllowance IpNet := do
  let net ← okOr .notARange (parse text)
  let net ← canonical net
  if sensitiveRanges.any fun range =>
      (net.containsNetwork range || range.containsNetwork net) && !range.containsNet net then
    throw .broadSensitiveClass
  return net

def isPublicUnicast (address : IpAddr) : Bool :=
  let ip := toCanonical address
  publicExceptions.any (·.contains ip) ||
    ((ip.isV4 || globalV6.contains ip) && !nonpublicRanges.any (·.contains ip))

inductive PolicyError
  | emptyAllowance
  | invalid (reason : InvalidAllowance)
  deriving DecidableEq

structure Policy where
  allow : List IpNet
  own : List SocketAddress
  deriving DecidableEq

def Policy.prepare (parse : Bytes → Option IpNet) (allow : Option (List Bytes))
    (own : List SocketAddress) : Except PolicyError Policy := do
  if allow.any List.isEmpty then throw .emptyAllowance
  let compiled ← (allow.getD []).mapM fun value => (allowance parse value).mapError .invalid
  return ⟨compiled, own⟩

def Policy.permits (policy : Policy) (address : SocketAddress) : Bool :=
  let ip := toCanonical address.ip
  if ip.isUnspecified || isMulticast ip || policy.own.any fun own =>
      own.port == address.port &&
        (toCanonical own.ip == ip || (own.ip.isUnspecified && isLoopback ip)) then false
  else isPublicUnicast ip || policy.allow.any (·.contains ip)

def socket : IpAddr → UInt16 → SocketAddress
  | .v4 octets, port => .v4 octets port
  | .v6 segments, port => .v6 segments 0 port

/-- What socket addresses are sorted by: family, address, port and scope. -/
def sortKey : SocketAddress → List Nat
  | .v4 address port => 4 :: value4 address :: [port.toNat]
  | .v6 address scope port => 6 :: value6 address :: port.toNat :: [scope.toNat]

def ownAddresses (own : List SocketAddress) : List SocketAddress :=
  ((own.map fun address => socket (toCanonical address.ip) address.port).mergeSort
    fun a b => sortKey a ≤ sortKey b).eraseDups

def join (high low : UInt8) : UInt16 := .ofNat (high.toNat * 256 + low.toNat)

def mapped (octets : Vector UInt8 4) : Vector UInt16 8 :=
  #v[0, 0, 0, 0, 0, 0xFFFF, join (octets.get 0) (octets.get 1), join (octets.get 2) (octets.get 3)]

theorem toNat_join (a b : UInt8) : (join a b).toNat = a.toNat * 256 + b.toNat := by
  have ha := a.toNat_lt
  have hb := b.toNat_lt
  rw [join, UInt16.toNat_ofNat']
  omega

theorem toNat_high (group : UInt16) : (high group).toNat = group.toNat / 256 := by
  have hlt := group.toNat_lt
  have hdiv : (group / 256).toNat = group.toNat / 256 := UInt16.toNat_div group 256
  rw [high, UInt16.toNat_toUInt8, hdiv]
  omega

theorem toNat_low (group : UInt16) : (low group).toNat = group.toNat % 256 :=
  UInt16.toNat_toUInt8 group

theorem high_join (a b : UInt8) : high (join a b) = a := by
  have hb := b.toNat_lt
  apply UInt8.toNat_inj.mp
  rw [toNat_high, toNat_join]
  omega

theorem low_join (a b : UInt8) : low (join a b) = b := by
  have hb := b.toNat_lt
  apply UInt8.toNat_inj.mp
  rw [toNat_low, toNat_join]
  omega

theorem join_high_low (group : UInt16) : join (high group) (low group) = group := by
  apply UInt16.toNat_inj.mp
  rw [toNat_join, toNat_high, toNat_low]
  omega

variable (octets : Vector UInt8 4)

theorem value4_lt : value4 octets < 4294967296 := by
  have h0 := (octets.get 0).toNat_lt
  have h1 := (octets.get 1).toNat_lt
  have h2 := (octets.get 2).toNat_lt
  have h3 := (octets.get 3).toNat_lt
  unfold value4
  omega

theorem toIpv4Mapped_mapped : toIpv4Mapped (mapped octets) = some octets := by
  have hpts : toIpv4Mapped (mapped octets) =
      some #v[octets.get 0, octets.get 1, octets.get 2, octets.get 3] := by
    unfold toIpv4Mapped
    change some #v[high (join (octets.get 0) (octets.get 1)),
      low (join (octets.get 0) (octets.get 1)), high (join (octets.get 2) (octets.get 3)),
      low (join (octets.get 2) (octets.get 3))] = _
    rw [high_join, low_join, high_join, low_join]
  rw [hpts, Option.some.injEq]
  apply Vector.ext
  intro i hi
  match i with
  | 0 | 1 | 2 | 3 => rfl

theorem eq_mapped_of_toIpv4Mapped {segs : Vector UInt16 8} {octets : Vector UInt8 4}
    (h : toIpv4Mapped segs = some octets) : segs = mapped octets := by
  unfold toIpv4Mapped at h
  split at h
  · next hgrs =>
    obtain rfl := Option.some.inj h
    obtain ⟨h0, h1, h2, h3, h4, h5⟩ := hgrs
    apply Vector.ext
    intro i hi
    match i with
    | 0 => exact h0
    | 1 => exact h1
    | 2 => exact h2
    | 3 => exact h3
    | 4 => exact h4
    | 5 => exact h5
    | 6 => exact (join_high_low (segs.get 6)).symm
    | 7 => exact (join_high_low (segs.get 7)).symm
  · simp at h

theorem value6_mapped : value6 (mapped octets) = 281470681743360 + value4 octets := by
  have h0 : ((mapped octets).get 0).toNat = 0 := rfl
  have h1 : ((mapped octets).get 1).toNat = 0 := rfl
  have h2 : ((mapped octets).get 2).toNat = 0 := rfl
  have h3 : ((mapped octets).get 3).toNat = 0 := rfl
  have h4 : ((mapped octets).get 4).toNat = 0 := rfl
  have h5 : ((mapped octets).get 5).toNat = 65535 := rfl
  have h6 : ((mapped octets).get 6).toNat = (octets.get 0).toNat * 256 + (octets.get 1).toNat :=
    toNat_join _ _
  have h7 : ((mapped octets).get 7).toNat = (octets.get 2).toNat * 256 + (octets.get 3).toNat :=
    toNat_join _ _
  rw [value6, value4, h0, h1, h2, h3, h4, h5, h6, h7]
  omega

theorem mappedBlock_contains_iff (segs : Vector UInt16 8) :
    mappedBlock.contains (value6 segs) = true ↔ ∃ octets, segs = mapped octets := by
  have hblk : mappedBlock.contains (value6 segs) = true ↔
      value6 segs / 4294967296 = 65535 := Block.contains_iff
  rw [hblk]
  constructor
  · intro h
    have h6 := (segs.get 6).toNat_lt
    have h7 := (segs.get 7).toNat_lt
    unfold value6 at h
    have hgrs : segs.get 0 = 0 ∧ segs.get 1 = 0 ∧ segs.get 2 = 0 ∧
        segs.get 3 = 0 ∧ segs.get 4 = 0 ∧ segs.get 5 = 0xFFFF := by
      refine ⟨?_, ?_, ?_, ?_, ?_, ?_⟩
      all_goals
        apply UInt16.toNat_inj.mp
        simp only [UInt16.reduceToNat]
        omega
    refine ⟨#v[high (segs.get 6), low (segs.get 6), high (segs.get 7), low (segs.get 7)], ?_⟩
    apply eq_mapped_of_toIpv4Mapped
    rw [toIpv4Mapped, if_pos hgrs]
  · rintro ⟨octets, rfl⟩
    have hlt := value4_lt octets
    rw [value6_mapped]
    omega

theorem toCanonical_mapped : toCanonical (.v6 (mapped octets)) = .v4 octets := by
  rw [toCanonical, toIpv4Mapped_mapped]

variable (ip : IpAddr)

theorem toCanonical_cases :
    toCanonical ip = ip ∨ ∃ octets, ip = .v6 (mapped octets) ∧ toCanonical ip = .v4 octets := by
  cases ip with
  | v4 octets => exact .inl rfl
  | v6 ss =>
    cases h : toIpv4Mapped ss with
    | none =>
      left
      rw [toCanonical, h]
    | some octets =>
      obtain rfl := eq_mapped_of_toIpv4Mapped h
      exact .inr ⟨octets, rfl, toCanonical_mapped octets⟩

theorem toCanonical_toCanonical : toCanonical (toCanonical ip) = toCanonical ip := by
  rcases toCanonical_cases ip with h | ⟨octets, -, h⟩
  · rw [h, h]
  · rw [h]
    rfl

/-- The IPv4 block that a part of the mapped block stands for. -/
theorem contains_unmapped {blk : Block 128} (hlen : 96 ≤ blk.length)
    (hmapped : mappedBlock.contains blk.network = true)
    (hle : blk.length - 96 ≤ 32) (octets : Vector UInt8 4) :
    (⟨blk.network % 4294967296, blk.length - 96, hle⟩ : Block 32).contains (value4 octets) =
      blk.contains (value6 (mapped octets)) := by
  have hnet : blk.network / 4294967296 = 65535 := Block.contains_iff.mp hmapped
  obtain ⟨s, hsma⟩ : ∃ s : Block 32,
      s = ⟨blk.network % 4294967296, blk.length - 96, hle⟩ := ⟨_, rfl⟩
  have hsz : s.size = blk.size := by
    rw [hsma, Block.size]
    congr 1
    dsimp only
    omega
  have hdvd : blk.size ∣ 4294967296 := Block.size_dvd_size (a := mappedBlock) (b := blk) hlen
  have hf : blk.network % 4294967296 / blk.size * blk.size = blk.network % 4294967296 := by
    apply Nat.div_mul_cancel
    rw [Nat.dvd_mod_iff hdvd]
    exact Dvd.intro_left _ rfl
  have hsmallNetwork : s.network = blk.network % 4294967296 := by
    rw [Block.network, hsz, hsma, hf]
  rw [← hsma, Block.contains, Block.contains, Block.broadcast, Block.broadcast,
    hsz, value6_mapped, Bool.eq_iff_iff]
  simp only [Bool.and_eq_true, decide_eq_true_iff]
  omega

variable {parse : Bytes → Option IpNet}

variable {net : IpNet} {allow : Option (List Bytes)}

/-- A compiled range has the canonical forms of the addresses of the configured one, and no
others. -/
theorem canonical_spec {raw : IpNet} (h : canonical raw = .ok net) :
    (∀ ip, raw.contains ip = true → net.contains (toCanonical ip) = true) ∧
      ∀ ip, net.contains (toCanonical ip) = true →
        ∃ o, raw.contains o = true ∧ toCanonical o = toCanonical ip := by
  cases raw with
  | v4 b =>
    obtain rfl := Except.ok.inj h
    refine ⟨fun ip hip => ?_, fun ip hip => ⟨toCanonical ip, hip, toCanonical_toCanonical ip⟩⟩
    cases ip with
    | v4 octets => exact hip
    | v6 segs => simp [IpNet.contains] at hip
  | v6 b =>
    unfold canonical at h
    dsimp only at h
    by_cases hov : (b.contains mappedBlock.network ||
        mappedBlock.contains b.network) = true
    · rw [if_pos hov] at h
      by_cases hsh : b.length < 96
      · rw [if_pos hsh] at h
        simp at h
      · rw [if_neg hsh] at h
        obtain rfl := Except.ok.inj h
        have hlen : 96 ≤ b.length := Nat.le_of_not_lt hsh
        -- the blocks share a number, so the longer one lies in the mapped block
        obtain ⟨x, hx, hxm⟩ : ∃ x, b.contains x = true ∧ mappedBlock.contains x = true := by
          rcases Bool.or_eq_true_iff.mp hov with h | h
          · exact ⟨_, h, mappedBlock.contains_network⟩
          · exact ⟨_, b.contains_network, h⟩
        have hinside {y : Nat} (hy : b.contains y = true) : mappedBlock.contains y = true :=
          Block.contains_of_contains hlen hxm hx hy
        have hblk (octets : Vector UInt8 4) :=
          contains_unmapped hlen (hinside b.contains_network)
            (Nat.sub_le_iff_le_add.mpr b.length_le) octets
        refine ⟨fun ip hip => ?_, fun ip hip => ?_⟩
        · cases ip with
          | v4 octets => simp [IpNet.contains] at hip
          | v6 segs =>
            obtain ⟨octets, rfl⟩ := (mappedBlock_contains_iff segs).mp (hinside hip)
            rw [toCanonical_mapped]
            exact (hblk octets).trans hip
        · cases hip' : toCanonical ip with
          | v6 segs =>
            rw [hip'] at hip
            simp [IpNet.contains] at hip
          | v4 octets =>
            rw [hip'] at hip
            exact ⟨.v6 (mapped octets), (hblk octets).symm.trans hip, toCanonical_mapped octets⟩
    · rw [if_neg hov] at h
      obtain rfl := Except.ok.inj h
      refine ⟨fun ip hip => ?_, fun ip hip => ⟨toCanonical ip, hip, toCanonical_toCanonical ip⟩⟩
      cases ip with
      | v4 octets => simp [IpNet.contains] at hip
      | v6 segs =>
        rcases toCanonical_cases (.v6 segs) with heq | ⟨octets, heq, -⟩
        · rw [heq]
          exact hip
        · have hmapped := (mappedBlock_contains_iff segs).mpr ⟨octets, IpAddr.v6.inj heq⟩
          refine absurd ?_ hov
          rw [Bool.or_eq_true_iff]
          exact Block.contains_network_of_mem hip hmapped

theorem IpNet.containsNetwork_of_mem {a b : IpNet} {ip : IpAddr} (ha : a.contains ip = true)
    (hb : b.contains ip = true) : (a.containsNetwork b || b.containsNetwork a) = true := by
  rw [Bool.or_eq_true_iff]
  cases a <;> cases b <;> cases ip <;> simp only [contains, Bool.false_eq_true] at ha hb
  all_goals exact Block.contains_network_of_mem ha hb

theorem IpNet.contains_of_containsNet {a b : IpNet} (h : a.containsNet b = true) {ip : IpAddr}
    (hip : b.contains ip = true) : a.contains ip = true := by
  cases a <;> cases b <;> cases ip <;>
    simp only [contains, containsNet, Bool.false_eq_true] at h hip
  all_goals exact Block.containsBlock_iff.mp h _ hip

theorem allowance_eq_ok {text : Bytes} (h : allowance parse text = .ok net) :
    ∃ raw, parse text = some raw ∧ canonical raw = .ok net ∧
      ∀ range ∈ sensitiveRanges, (net.containsNetwork range || range.containsNetwork net) = true →
        range.containsNet net = true := by
  obtain ⟨raw, hraw, h⟩ := bind_eq_ok.mp h
  obtain ⟨net', hnet, h⟩ := bind_eq_ok.mp h
  split at h
  · simp [bind, Except.bind, throw, throwThe, MonadExceptOf.throw] at h
  · next hany =>
    obtain rfl := Except.ok.inj h
    refine ⟨raw, okOr_eq_ok.mp hraw, hnet, fun range hrg hov => ?_⟩
    by_contra hcont
    exact hany (List.any_eq_true.mpr ⟨range, hrg, by simp [hov, hcont]⟩)

/-- A range that has a sensitive address lies in its class. -/
theorem sensitive_of_allowance {text : Bytes} {raw range : IpNet}
    (h : allowance parse text = .ok net) (hraw : parse text = some raw)
    (hrg : range ∈ sensitiveRanges) {ip : IpAddr} (hip : raw.contains ip = true)
    (hsens : range.contains (toCanonical ip) = true) {o : IpAddr} (ho : raw.contains o = true) :
    range.contains (toCanonical o) = true := by
  obtain ⟨raw', hraw', hcan, hclasses⟩ := allowance_eq_ok h
  obtain rfl : raw = raw' := Option.some.inj (hraw.symm.trans hraw')
  have hspec := canonical_spec hcan
  have hinside := hclasses range hrg (IpNet.containsNetwork_of_mem (hspec.1 ip hip) hsens)
  exact IpNet.contains_of_containsNet hinside (hspec.1 o ho)

theorem mapError_eq_ok {ε ε' α : Type} {x : Except ε α} {f : ε → ε'} {a : α} :
    x.mapError f = .ok a ↔ x = .ok a := by
  cases x <;> simp [Except.mapError]

theorem Policy.prepare_eq_ok {own : List SocketAddress} {pol : Policy}
    (h : prepare parse allow own = .ok pol) :
    pol.own = own ∧
      (∀ net ∈ pol.allow, ∃ text ∈ allow.getD [], allowance parse text = .ok net) ∧
      ∀ text ∈ allow.getD [], ∃ net, allowance parse text = .ok net := by
  unfold prepare at h
  split at h
  · simp [bind, Except.bind, throw, throwThe, MonadExceptOf.throw] at h
  · obtain ⟨c, hcmp, h⟩ := bind_eq_ok.mp h
    obtain rfl := Except.ok.inj h
    refine ⟨rfl, fun net hnet => ?_, fun text ht => ?_⟩
    · obtain ⟨text, ht, hok⟩ := exists_of_mem_mapM hcmp hnet
      exact ⟨text, ht, mapError_eq_ok.mp hok⟩
    · obtain ⟨net, -, hok⟩ := exists_of_mem_items hcmp ht
      exact ⟨net, mapError_eq_ok.mp hok⟩

/-- A destination that may be dialled, by the ranges that were configured and the own listeners. -/
structure Destination (parse : Bytes → Option IpNet) (allow : List Bytes)
    (own : List SocketAddress) (address : SocketAddress) : Prop where
  specified : (toCanonical address.ip).isUnspecified = false
  unicast : isMulticast (toCanonical address.ip) = false
  foreign : ∀ listener ∈ own, listener.port = address.port →
    toCanonical listener.ip ≠ toCanonical address.ip ∧
      (listener.ip.isUnspecified = true → isLoopback (toCanonical address.ip) = false)
  granted : isPublicUnicast address.ip = true ∨ ∃ text ∈ allow, ∃ range ∈ parse text,
    ∃ ip, range.contains ip = true ∧ toCanonical ip = toCanonical address.ip

theorem Policy.destination_of_permits {own : List SocketAddress} {pol : Policy}
    (h : prepare parse allow own = .ok pol) {address : SocketAddress}
    (hpermits : pol.permits address = true) : Destination parse (allow.getD []) own address := by
  obtain ⟨rfl, hallow, -⟩ := prepare_eq_ok h
  unfold permits at hpermits
  dsimp only at hpermits
  split at hpermits
  · exact absurd hpermits (by decide)
  · next hrefused =>
    rw [Bool.not_eq_true, Bool.or_eq_false_iff, Bool.or_eq_false_iff] at hrefused
    obtain ⟨⟨hspecified, hunicast⟩, hown⟩ := hrefused
    refine ⟨hspecified, hunicast, fun lis hlis hport => ?_, ?_⟩
    · have := List.any_eq_false.mp hown lis hlis
      simp only [hport, BEq.rfl, Bool.true_and, Bool.or_eq_true, beq_iff_eq, Bool.and_eq_true,
        not_or, not_and, Bool.not_eq_true] at this
      exact this
    · rcases Bool.or_eq_true_iff.mp hpermits with hpublic | hrg
      · left
        unfold isPublicUnicast at hpublic ⊢
        rwa [toCanonical_toCanonical] at hpublic
      · obtain ⟨net, hnet, hcont⟩ := List.any_eq_true.mp hrg
        obtain ⟨text, htext, hok⟩ := hallow net hnet
        obtain ⟨raw, hraw, hcan, -⟩ := allowance_eq_ok hok
        obtain ⟨ip, hip, heq⟩ := (canonical_spec hcan).2 address.ip hcont
        exact .inr ⟨text, htext, raw, hraw, ip, hip, heq⟩

theorem mem_ownAddresses {listeners : List SocketAddress} {lis : SocketAddress}
    (h : lis ∈ listeners) : socket (toCanonical lis.ip) lis.port ∈ ownAddresses listeners := by
  unfold ownAddresses
  rw [List.mem_eraseDups, List.mem_mergeSort]
  exact List.mem_map_of_mem h

theorem ip_socket (port : UInt16) : (socket ip port).ip = ip := by
  cases ip <;> rfl

theorem port_socket (port : UInt16) : (socket ip port).port = port := by
  cases ip <;> rfl

/-- What a policy says, for every list of ranges that it accepts: a permitted address is a specified
unicast address, not one of the own listeners, and public or in a configured range; also when the
listeners are written as IPv6 addresses; an address and its form as an IPv6 address are alike; and a
configured range that has a loopback or link-local address lies in that class. -/
theorem Policy.permits_sound (parse : Bytes → Option IpNet) (allow : Option (List Bytes))
    (own : List SocketAddress) (policy : Policy) (h : Policy.prepare parse allow own = .ok policy) :
    (∀ address, policy.permits address = true → Destination parse (allow.getD []) own address) ∧
    (∀ listeners, own = ownAddresses listeners → ∀ address, policy.permits address = true →
      ∀ listener ∈ listeners, listener.port = address.port →
        toCanonical listener.ip ≠ toCanonical address.ip ∧
          ((toCanonical listener.ip).isUnspecified = true →
            isLoopback (toCanonical address.ip) = false)) ∧
    (∀ octets scope port, policy.permits (.v6 (mapped octets) scope port) =
      policy.permits (.v4 octets port)) ∧
    ∀ text ∈ allow.getD [], ∀ range ∈ parse text, ∀ sensitive ∈ sensitiveRanges,
      (∃ ip, range.contains ip = true ∧ sensitive.contains (toCanonical ip) = true) →
        ∀ ip, range.contains ip = true → sensitive.contains (toCanonical ip) = true := by
  refine ⟨fun address hpermits => destination_of_permits h hpermits, ?_, ?_, ?_⟩
  · intro listeners how address hpermits listener hlis hpt
    have hmem : socket (toCanonical listener.ip) listener.port ∈ own := how ▸ mem_ownAddresses hlis
    have hfor := (destination_of_permits h hpermits).foreign _ hmem
      ((port_socket _ _).trans hpt)
    rwa [ip_socket, toCanonical_toCanonical] at hfor
  · intro octets scope port
    have hip : toCanonical (SocketAddress.v6 (mapped octets) scope port).ip =
        toCanonical (SocketAddress.v4 octets port).ip := toCanonical_mapped octets
    unfold permits
    rw [hip]
    rfl
  · rintro text ht range hrg sensitive hsens ⟨ip, hip, hclass⟩ o ho
    obtain ⟨net, hok⟩ := (prepare_eq_ok h).2.2 text ht
    exact sensitive_of_allowance hok hrg hsens hip hclass ho

/-- A process that listens on every address at port 443 and allows a private range. -/
theorem Policy.permits_sound_private :
    Policy.prepare (fun _ => some (net4 10 0 0 0 8)) (some [ascii "10.0.0.0/8"])
      [.v4 #v[0, 0, 0, 0] 443] = .ok ⟨[net4 10 0 0 0 8], [.v4 #v[0, 0, 0, 0] 443]⟩ ∧
    Policy.permits ⟨[net4 10 0 0 0 8], [.v4 #v[0, 0, 0, 0] 443]⟩ (.v4 #v[10, 1, 2, 3] 443) = true ∧
    Destination (fun _ => some (net4 10 0 0 0 8)) [ascii "10.0.0.0/8"] [.v4 #v[0, 0, 0, 0] 443]
      (.v4 #v[10, 1, 2, 3] 443) := by
  have hprepare : prepare (fun _ => some (net4 10 0 0 0 8)) (some [ascii "10.0.0.0/8"])
      [.v4 #v[0, 0, 0, 0] 443] = .ok ⟨[net4 10 0 0 0 8], [.v4 #v[0, 0, 0, 0] 443]⟩ := by
    decide
  have hpermits : permits ⟨[net4 10 0 0 0 8], [.v4 #v[0, 0, 0, 0] 443]⟩
      (.v4 #v[10, 1, 2, 3] 443) = true := by decide
  exact ⟨hprepare, hpermits, (permits_sound _ _ _ _ hprepare).1 _ hpermits⟩

end Pingclair.AddressPolicy
