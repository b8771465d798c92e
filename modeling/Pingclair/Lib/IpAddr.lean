import Pingclair.Lib.ByteText

/-!
# Internet addresses

The text forms of IPv4 and IPv6 addresses, alone and with a port, read as Rust's `std::net`
reads them. A reader takes bytes from the front of the text; one that fails takes none.
-/

inductive IpAddr where
  | v4 (octets : Vector UInt8 4)
  | v6 (segments : Vector UInt16 8)
  deriving DecidableEq

/-- An address with a port. An IPv6 address may name a scope, which is 0 when it does not. -/
inductive SocketAddress where
  | v4 (address : Vector UInt8 4) (port : UInt16)
  | v6 (address : Vector UInt16 8) (scope : UInt32) (port : UInt16)
  deriving DecidableEq

def SocketAddress.ip : SocketAddress → IpAddr
  | .v4 address _ => .v4 address
  | .v6 address _ _ => .v6 address

def SocketAddress.port : SocketAddress → UInt16
  | .v4 _ port => port
  | .v6 _ _ port => port

namespace IpAddr

open ByteText

abbrev colon : UInt8 := 0x3A

/-- Reads from the front of a text and leaves the rest. -/
abbrev Reader := StateT Bytes Option

def toDigit (radix : Nat) (b : UInt8) : Option Nat :=
  let value :=
    if 0x30 ≤ b && b ≤ 0x39 then some (b.toNat - 0x30)
    else if 0x61 ≤ b && b ≤ 0x7A then some (b.toNat - 0x61 + 10)
    else if 0x41 ≤ b && b ≤ 0x5A then some (b.toNat - 0x41 + 10)
    else none
  value.filter (· < radix)

def readGivenChar (target : UInt8) : Reader Unit
  | [] => none
  | b :: rest => if b = target then some ((), rest) else none

def readSeparator {α : Type} (sep : UInt8) (index : Nat) (inner : Reader α) : Reader α := do
  if index > 0 then readGivenChar sep
  inner

/-- Reads all digits that follow, as a number below `bound`. -/
def readNumber (radix : Nat) (maxDigits : Option Nat) (allowZeroPrefix : Bool) (bound : Nat) :
    Reader Nat := fun s =>
  let digits := (s.takeWhile fun b => (toDigit radix b).isSome).filterMap (toDigit radix)
  let value := digits.foldl (fun value digit => value * radix + digit) 0
  if maxDigits.any (· < digits.length) then none
  else if digits = [] then none
  else if !allowZeroPrefix && s.head? == some 0x30 && digits.length > 1 then none
  else if value < bound then some (value, s.drop digits.length)
  else none

def readIpv4Addr : Reader (Vector UInt8 4) := do
  let octet (index : Nat) : Reader UInt8 :=
    UInt8.ofNat <$> readSeparator dot index (readNumber 10 (some 3) false 256)
  return #v[← octet 0, ← octet 1, ← octet 2, ← octet 3]

/-- Reads up to `limit` groups, from the one at `index` on. An IPv4 address may take the
place of two groups; it is the last. Answers the groups, and whether it was there. -/
def readGroups (limit index : Nat) : (fuel : Nat) → Bytes → (List UInt16 × Bool) × Bytes
  | 0, s => (([], false), s)
  | fuel + 1, s =>
    let ipv4 := if index < limit - 1 then (readSeparator colon index readIpv4Addr).run s else none
    match ipv4 with
    | some (octets, s) =>
      let word (high low : UInt8) : UInt16 := high.toUInt16 * 256 + low.toUInt16
      (([word octets[0] octets[1], word octets[2] octets[3]], true), s)
    | none =>
      match (readSeparator colon index (readNumber 16 (some 4) true 65536)).run s with
      | none => (([], false), s)
      | some (group, s) =>
        let ((groups, last), s) := readGroups limit (index + 1) fuel s
        ((UInt16.ofNat group :: groups, last), s)

/-- Eight groups, or fewer with one `::` for the zeros left out. -/
def readIpv6Addr : Reader (Vector UInt16 8) := fun s =>
  let ((head, headIpv4), s) := readGroups 8 0 8 s
  if head.length = 8 then some (.ofFn fun i => head.getD i 0, s)
  -- an IPv4 part is not allowed before the zeros
  else if headIpv4 then none
  else do
    let (_, s) ← (readGivenChar colon).run s
    let (_, s) ← (readGivenChar colon).run s
    let limit := 8 - (head.length + 1)
    let ((tail, _), s) := readGroups limit 0 limit s
    let groups := head ++ List.replicate (8 - head.length - tail.length) 0 ++ tail
    return (.ofFn fun i => groups.getD i 0, s)

def readIpAddr : Reader IpAddr := v4 <$> readIpv4Addr <|> v6 <$> readIpv6Addr

def readPort : Reader UInt16 := do
  readGivenChar colon
  UInt16.ofNat <$> readNumber 10 none true 65536

def readScopeId : Reader UInt32 := do
  readGivenChar 0x25
  UInt32.ofNat <$> readNumber 10 none true 4294967296

def readSocketAddrV4 : Reader SocketAddress := do
  let address ← readIpv4Addr
  return .v4 address (← readPort)

/-- The address stands in brackets, and its scope with it. -/
def readSocketAddrV6 : Reader SocketAddress := do
  readGivenChar 0x5B
  let address ← readIpv6Addr
  let scope ← readScopeId <|> pure 0
  readGivenChar 0x5D
  return .v6 address scope (← readPort)

def readSocketAddr : Reader SocketAddress := readSocketAddrV4 <|> readSocketAddrV6

def parseWith {α : Type} (inner : Reader α) (s : Bytes) : Option α :=
  match inner.run s with
  | some (value, []) => some value
  | _ => none

def parse (s : Bytes) : Option IpAddr := parseWith readIpAddr s

def parseSocket (s : Bytes) : Option IpAddr := (parseWith readSocketAddr s).map SocketAddress.ip

section

variable {b : UInt8} {rest : Bytes} (hdigit : toDigit 16 b = none) (hcolon : b ≠ colon)

include hdigit

theorem toDigit_ten_of_sixteen : toDigit 10 b = none := by
  rw [toDigit, Option.filter_eq_none_iff] at hdigit ⊢
  intro value hv
  have := hdigit value hv
  simp only [decide_eq_true_eq] at this ⊢
  omega

theorem readIpv4Addr_eq_none : readIpv4Addr (b :: rest) = none := by
  have hnum : readNumber 10 (some 3) false 256 (b :: rest) = none := by
    simp [readNumber, toDigit_ten_of_sixteen hdigit]
  have hoctet : readSeparator dot 0 (readNumber 10 (some 3) false 256) (b :: rest) = none := hnum
  simp [readIpv4Addr, StateT.bind, bind, Functor.map, StateT.map, hoctet]

theorem readGroups_eq_nil (limit fuel : Nat) :
    readGroups limit 0 fuel (b :: rest) = (([], false), b :: rest) := by
  cases fuel with
  | zero => rfl
  | succ fuel =>
    have hipv4 : (readSeparator colon 0 readIpv4Addr).run (b :: rest) = none :=
      readIpv4Addr_eq_none hdigit
    have hgr : (readSeparator colon 0 (readNumber 16 (some 4) true 65536)).run (b :: rest) =
        none := by
      show readNumber 16 (some 4) true 65536 (b :: rest) = none
      simp [readNumber, hdigit]
    simp [readGroups, hipv4, hgr]

include hcolon

theorem parse_eq_none : parse (b :: rest) = none := by
  have hipv6 : readIpv6Addr (b :: rest) = none := by
    simp [readIpv6Addr, readGroups_eq_nil hdigit, StateT.run, readGivenChar, hcolon]
  have hrd : readIpAddr.run (b :: rest) = none := by
    show (((readIpv4Addr (b :: rest)).bind fun p => some (v4 p.1, p.2)) <|>
      (readIpv6Addr (b :: rest)).bind fun p => some (v6 p.1, p.2)) = none
    rw [readIpv4Addr_eq_none hdigit, hipv6]
    rfl
  rw [parse, parseWith, hrd]

end

@[simp] theorem parse_nil : parse [] = none := by decide

end IpAddr
