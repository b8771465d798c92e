import Pingclair.Lib.IpAddr
import Pingclair.Lib.Numerals

/-!
# Socket addresses as text

Addresses written as Rust's `std::net` writes them, and the wildcard addresses, which stand for
every interface: what is written of a wildcard socket is read as that socket.
-/

namespace IpAddr

open ByteText Numerals

def ipv4Text (octets : Vector UInt8 4) : Bytes :=
  [dot].intercalate (octets.toList.map fun octet => decimal octet.toNat)

/-- The longest run of zeros so far, and the one that reaches this segment, each by its start and
its length. -/
def extendSpans (spans : (Nat × Nat) × Nat × Nat) (item : UInt16 × Nat) : (Nat × Nat) × Nat × Nat :=
  let (longest, current) := spans
  if item.1 = 0 then
    let current := (if current.2 = 0 then item.2 else current.1, current.2 + 1)
    (if longest.2 < current.2 then current else longest, current)
  else (longest, 0, 0)

def groupsText (segments : List UInt16) : Bytes :=
  [colon].intercalate (segments.map fun segment => numeral 16 segment.toNat)

/-- Eight groups; the longest run of zeros is left out, and the IPv4 address of a mapped one is
written as such. -/
def ipv6Text (segments : Vector UInt16 8) : Bytes :=
  let groups := segments.toList
  if groups.take 6 = [0, 0, 0, 0, 0, 0xFFFF] then
    let byte (n : UInt16) : UInt8 := n.toUInt8
    ascii "::ffff:" ++ ipv4Text #v[byte (segments[6] / 256), byte (segments[6] % 256),
      byte (segments[7] / 256), byte (segments[7] % 256)]
  else
    let (start, length) := (groups.zipIdx.foldl extendSpans ((0, 0), 0, 0)).1
    if length > 1 then
      groupsText (groups.take start) ++ ascii "::" ++ groupsText (groups.drop (start + length))
    else groupsText groups

example : ipv6Text #v[0x2001, 0xDB8, 0, 0, 1, 0, 0, 1] = ascii "2001:db8::1:0:0:1" := by
  decide +kernel

def isUnspecified : IpAddr → Bool
  | .v4 octets => octets = #v[0, 0, 0, 0]
  | .v6 segments => segments = #v[0, 0, 0, 0, 0, 0, 0, 0]

def isV4 : IpAddr → Bool
  | .v4 _ => true
  | .v6 _ => false

end IpAddr

namespace SocketAddress

open ByteText Numerals IpAddr

def parse (s : Bytes) : Option SocketAddress := parseWith readSocketAddr s

def toText : SocketAddress → Bytes
  | .v4 address port => ipv4Text address ++ colon :: decimal port.toNat
  | .v6 address scope port =>
    let scope := if scope = 0 then [] else 0x25 :: decimal scope.toNat
    0x5B :: ipv6Text address ++ scope ++ 0x5D :: colon :: decimal port.toNat

theorem toDigit_digit {n : Nat} (h : n < 10) : toDigit 10 (digit n) = some n := by
  have ha : ∀ n < 10, toDigit 10 (digit n) = some n := by decide
  exact ha n h

theorem exists_digits (n : Nat) : ∃ ds : List Nat, decimal n = ds.map digit ∧
    ds ≠ [] ∧ (∀ d ∈ ds, d < 10) ∧ ds.foldl (fun value d => value * 10 + d) 0 = n := by
  by_cases hn : n = 0
  · exact ⟨[0], by simp [decimal, numeral, hn], by simp, by simp, by simp [hn]⟩
  · refine ⟨(Nat.digits 10 n).reverse, by simp [decimal, numeral, hn, List.map_reverse], ?_, ?_, ?_⟩
    · simpa [Nat.digits_ne_nil_iff_ne_zero] using hn
    · intro d hd
      exact Nat.digits_lt_base (by norm_num) (List.mem_reverse.mp hd)
    · rw [List.foldl_reverse]
      conv_rhs => rw [← Nat.ofDigits_digits 10 n, Nat.ofDigits_eq_foldr]
      congr 1
      funext d value
      simp [Nat.mul_comm, Nat.add_comm]

theorem colon_notMem_decimal (n : Nat) : colon ∉ decimal n := by
  intro hmem
  obtain ⟨d, hd, hcol⟩ := exists_digit_of_mem_numeral (by omega) hmem
  have ha : ∀ d < 10, digit d ≠ colon := by decide
  exact ha d hd hcol

theorem parseDigits_map_digit {ds : List Nat} (h : ∀ d ∈ ds, d < 10) (sofar : Nat) :
    parseDigits sofar (ds.map digit) = some (ds.foldl (fun value d => value * 10 + d) sofar) := by
  induction ds generalizing sofar with
  | nil => rfl
  | cons d ds ih =>
    have ha : ∀ d < 10, digitValue (digit d) = some d := by decide
    rw [List.map_cons, parseDigits, ha d (h d List.mem_cons_self)]
    simp [ih (List.forall_mem_cons.mp h).2, Nat.mul_comm]

theorem parseUnsigned_decimal {n bound : Nat} (hn : n ≤ bound) :
    parseUnsigned bound (decimal n) = some n := by
  obtain ⟨ds, hdcm, hne, hlt, hv⟩ := exists_digits n
  have hsign : (ds.map digit).dropPrefix? [0x2B] = none := by
    cases ds with
    | nil => exact absurd rfl hne
    | cons d ds =>
      have ha : ∀ d < 10, digit d ≠ 0x2B := by decide
      simp [List.dropPrefix?, ha d (hlt d List.mem_cons_self)]
  rw [hdcm, parseUnsigned, hsign, Option.getD_none, parseDigits_map_digit hlt, hv]
  simp [hne, hn]

theorem readNumber_decimal {n bound : Nat} (hn : n < bound) (rest : Bytes)
    (hrest : ∀ b ∈ rest.head?, toDigit 10 b = none) :
    readNumber 10 none true bound (decimal n ++ rest) = some (n, rest) := by
  obtain ⟨digits, hdcm, hne, hlt, hv⟩ := exists_digits n
  have htk : (decimal n ++ rest).takeWhile (fun b => (toDigit 10 b).isSome) = decimal n := by
    have ha : ∀ b ∈ decimal n, (toDigit 10 b).isSome = true := by
      rw [hdcm]
      intro b hb
      obtain ⟨d, hd, rfl⟩ := List.mem_map.mp hb
      rw [toDigit_digit (hlt d hd)]
      rfl
    rw [List.takeWhile_append_of_pos ha]
    cases rest with
    | nil => simp
    | cons b rest => simp [hrest b rfl]
  have hdg : (decimal n).filterMap (toDigit 10) = digits := by
    rw [hdcm, List.filterMap_map]
    calc digits.filterMap (toDigit 10 ∘ digit) = digits.filterMap some :=
          List.filterMap_congr fun d hd => toDigit_digit (hlt d hd)
      _ = digits := List.filterMap_some
  have hlen : digits.length = (decimal n).length := by rw [hdcm, List.length_map]
  simp only [readNumber, htk, hdg, hv, hlen]
  simp [hne, hn]

theorem readPort_decimal (port : UInt16) :
    readPort (colon :: decimal port.toNat) = some (port, []) := by
  have hnum := readNumber_decimal port.toNat_lt [] (by simp)
  rw [List.append_nil] at hnum
  simp [readPort, readGivenChar, hnum, bind, StateT.bind, Functor.map, StateT.map]

theorem readScopeId_decimal (scope : UInt32) (rest : Bytes) :
    readScopeId (0x25 :: (decimal scope.toNat ++ 0x5D :: rest)) = some (scope, 0x5D :: rest) := by
  have hnum := readNumber_decimal scope.toNat_lt (0x5D :: rest)
    (by simp only [List.head?_cons, Option.mem_some_iff, forall_eq']; decide)
  simp [readScopeId, readGivenChar, hnum, bind, StateT.bind, Functor.map, StateT.map]

theorem readIpv4Addr_zeros (rest : Bytes) :
    readIpv4Addr (ascii "0.0.0.0" ++ colon :: rest) = some (#v[0, 0, 0, 0], colon :: rest) := rfl

theorem readIpv6Addr_zeros {b : UInt8} (hb : toDigit 16 b = none) (rest : Bytes) :
    readIpv6Addr (colon :: colon :: b :: rest) = some (#v[0, 0, 0, 0, 0, 0, 0, 0], b :: rest) := by
  have hcol : toDigit 16 colon = none := by decide
  simp [readIpv6Addr, readGroups_eq_nil hcol, readGroups_eq_nil hb, StateT.run, readGivenChar]
  rfl

/-- An IPv6 wildcard, up to what is read as its scope. -/
theorem readSocketAddrV6_zeros {b : UInt8} (hb : toDigit 16 b = none) {rest : Bytes}
    {scope : UInt32} {port : UInt16}
    (hsc : (readScopeId <|> pure 0) (b :: rest) =
      some (scope, 0x5D :: colon :: decimal port.toNat)) :
    readSocketAddrV6 (0x5B :: colon :: colon :: b :: rest) =
      some (.v6 #v[0, 0, 0, 0, 0, 0, 0, 0] scope port, []) := by
  simp only [readSocketAddrV6, bind, StateT.bind, Option.bind, readGivenChar, if_true,
    readIpv6Addr_zeros hb, hsc, readPort_decimal]
  rfl

variable {socket : SocketAddress}

theorem parse_of_v4 {s : Bytes} (h : readSocketAddrV4 s = some (socket, [])) :
    parse s = some socket := by
  have hrd : readSocketAddr.run s = some (socket, []) := by
    show (readSocketAddrV4 s <|> readSocketAddrV6 s) = _
    rw [h]
    rfl
  rw [parse, parseWith, hrd]

theorem parse_of_v6 {s : Bytes} (h : readSocketAddrV6 (0x5B :: s) = some (socket, [])) :
    parse (0x5B :: s) = some socket := by
  have hv4 : readSocketAddrV4 (0x5B :: s) = none := by
    have hnone : readIpv4Addr (0x5B :: s) = none := readIpv4Addr_eq_none (by decide)
    simp [readSocketAddrV4, hnone, bind, StateT.bind]
  have hrd : readSocketAddr.run (0x5B :: s) = some (socket, []) := by
    show (readSocketAddrV4 (0x5B :: s) <|> readSocketAddrV6 (0x5B :: s)) = _
    rw [hv4, h]
    rfl
  rw [parse, parseWith, hrd]

theorem parse_toText (h : socket.ip.isUnspecified = true) : parse socket.toText = some socket := by
  cases socket with
  | v4 address port =>
    obtain rfl : address = #v[0, 0, 0, 0] := of_decide_eq_true h
    have ht : ipv4Text #v[0, 0, 0, 0] = ascii "0.0.0.0" := by decide +kernel
    apply parse_of_v4
    simp only [toText, ht, readSocketAddrV4, bind, StateT.bind, Option.bind,
      readIpv4Addr_zeros, readPort_decimal]
    rfl
  | v6 address s port =>
    obtain rfl : address = #v[0, 0, 0, 0, 0, 0, 0, 0] := of_decide_eq_true h
    have ht : ipv6Text #v[0, 0, 0, 0, 0, 0, 0, 0] = [colon, colon] := by decide +kernel
    rw [toText, ht]
    by_cases hsc : s = 0
    · subst hsc
      exact parse_of_v6 (readSocketAddrV6_zeros (by decide) rfl)
    · rw [if_neg hsc]
      apply parse_of_v6
      refine readSocketAddrV6_zeros (by decide) ?_
      show (readScopeId (_ :: (_ ++ _ :: _)) <|> some (0, _)) = _
      rw [readScopeId_decimal]
      rfl

theorem parse_any (port : UInt16) : parse (ascii "[::]" ++ colon :: decimal port.toNat) =
    some (.v6 #v[0, 0, 0, 0, 0, 0, 0, 0] 0 port) :=
  parse_of_v6 (readSocketAddrV6_zeros (by decide) rfl)

end SocketAddress
