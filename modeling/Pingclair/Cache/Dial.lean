import Pingclair.Lib.SocketAddress
import Pingclair.Lib.Utf8

/-!
# Dials with placeholders

Where an upstream is reached: a host and a port, or a Unix socket. A dial that is written with
placeholders is expanded for each request, and the first template that means something is used.

The text that stands for a dial in the cache joins a host and its port with a colon and writes the
path of a socket as it is.
-/

namespace Pingclair.Cache

open ByteText Numerals

inductive Scheme where
  | http
  | https
  | h2c
  | h2
  deriving DecidableEq

def Scheme.debug : Scheme → Bytes
  | .http => ascii "Http"
  | .https => ascii "Https"
  | .h2c => ascii "H2c"
  | .h2 => ascii "H2"

inductive UpstreamSpec where
  | tcp (scheme : Scheme) (host : Bytes) (port : UInt16)
  | unix (scheme : Scheme) (path : Bytes)
  deriving DecidableEq

namespace UpstreamSpec

def scheme : UpstreamSpec → Scheme
  | .tcp scheme _ _ => scheme
  | .unix scheme _ => scheme

def unixSpec (scheme : Scheme) (path : Bytes) : Option UpstreamSpec :=
  if path = [] ∨ path = [slash] then none else some (.unix scheme path)

/-- The scheme in front of an address, and the rest of it. -/
def stripScheme (address : Bytes) : Scheme × Bytes :=
  match address.dropPrefix? (ascii "h2c://") with
  | some rest => (.h2c, rest)
  | none =>
    match address.dropPrefix? (ascii "h2://") with
    | some rest => (.h2, rest)
    | none =>
      match address.dropPrefix? (ascii "https://") with
      | some rest => (.https, rest)
      | none => (.http, (address.dropPrefix? (ascii "http://")).getD address)

/-- The last colon, behind the brackets of an address when it has them. -/
def portSeparator (url : Bytes) : Option Nat :=
  match rfind 0x5D url with
  | some bracket => (rfind 0x3A (url.drop bracket)).map (bracket + ·)
  | none => rfind 0x3A url

def defaultPort : Scheme → UInt16
  | .https | .h2 => 443
  | .http | .h2c => 80

def parse (address : Bytes) : Option UpstreamSpec :=
  let trimmed := Utf8.trim address
  match trimmed.dropPrefix? (ascii "unix+h2c/") with
  | some path => unixSpec .h2c path
  | none =>
    match trimmed.dropPrefix? (ascii "unix/") with
    | some path => unixSpec .http path
    | none =>
      let (scheme, url) := stripScheme trimmed
      let parts : Option (Bytes × UInt16) :=
        match portSeparator url with
        | some index =>
          (parseUnsigned 65535 (url.drop (index + 1))).map fun port =>
            (url.take index, UInt16.ofNat port)
        | none => some (url, defaultPort scheme)
      parts.map fun parts =>
        .tcp scheme (if parts.1 = [] then ascii "127.0.0.1" else parts.1) parts.2

example : parse (ascii "https://app:8443") = some (.tcp .https (ascii "app") 8443) := by
  decide

example : parse (ascii ":9000") = some (.tcp .http (ascii "127.0.0.1") 9000) := by
  decide

def hostPort (host : Bytes) (port : UInt16) : Bytes := host ++ 0x3A :: decimal port.toNat

def authority : UpstreamSpec → Bytes
  | .tcp _ host port => hostPort host port
  | .unix _ path => path

def identity (spec : UpstreamSpec) : Bytes :=
  spec.scheme.debug ++ ascii "://" ++ spec.authority

/-- The dial of a socket whose path reads like a host and a port. -/
def Ambiguous : UpstreamSpec → Prop
  | .tcp _ _ _ => False
  | .unix _ path => ∃ host port, path = hostPort host port

theorem decimal_inj {port port' : UInt16} (h : decimal port.toNat = decimal port'.toNat) :
    port = port' :=
  UInt16.toNat_inj.mp (numeral_injective (by omega) (by omega) h)

theorem hostPort_inj {host host' : Bytes} {port port' : UInt16}
    (h : hostPort host port = hostPort host' port') : host = host' ∧ port = port' := by
  have hidx := rfind_append (s := host) (SocketAddress.colon_notMem_decimal port.toNat)
  rw [show host ++ 0x3A :: decimal port.toNat = hostPort host' port' from h, hostPort,
    rfind_append (SocketAddress.colon_notMem_decimal port'.toNat)] at hidx
  obtain ⟨rfl, hpt⟩ := List.append_inj h (Option.some.inj hidx).symm
  exact ⟨rfl, decimal_inj (List.cons.inj hpt).2⟩

theorem identity_split {spec spec' : UpstreamSpec} (h : spec.identity = spec'.identity) :
    spec.scheme = spec'.scheme ∧ spec.authority = spec'.authority := by
  have hcol (scheme : Scheme) : 0x3A ∉ scheme.debug := by cases scheme <;> decide
  have hsp (spec : UpstreamSpec) :
      splitOnce 0x3A spec.identity = some (spec.scheme.debug, ascii "//" ++ spec.authority) := by
    rw [identity, List.append_assoc]
    exact splitOnce_append (hcol spec.scheme)
  have hsm := hsp spec
  rw [h, hsp spec', Option.some.injEq, Prod.mk.injEq] at hsm
  refine ⟨?_, (List.append_cancel_left hsm.2).symm⟩
  have hinj : ∀ scheme scheme' : Scheme, scheme.debug = scheme'.debug → scheme = scheme' := by
    intro scheme scheme'
    cases scheme <;> cases scheme' <;> decide
  exact (hinj _ _ hsm.1).symm

/-- The text tells dials apart, sockets that read like a host and a port aside. -/
theorem identity_inj {spec spec' : UpstreamSpec} (hpl : ¬spec.Ambiguous)
    (hpl' : ¬spec'.Ambiguous) (h : spec.identity = spec'.identity) : spec = spec' := by
  obtain ⟨hsch, haut⟩ := identity_split h
  cases spec with
  | tcp scheme host port =>
    cases spec' with
    | tcp scheme' host' port' =>
      obtain rfl : scheme = scheme' := hsch
      obtain ⟨rfl, rfl⟩ := hostPort_inj haut
      rfl
    | unix scheme' p => exact absurd ⟨host, port, haut.symm⟩ hpl'
  | unix scheme p =>
    cases spec' with
    | tcp scheme' host port => exact absurd ⟨host, port, haut⟩ hpl
    | unix scheme' p' =>
      obtain rfl : scheme = scheme' := hsch
      obtain rfl : p = p' := haut
      rfl

end UpstreamSpec

end Pingclair.Cache
