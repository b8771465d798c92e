import Pingclair.Lib.Alike
import Pingclair.Lib.AsciiCase
import Pingclair.Lib.Durations
import Pingclair.Lib.Fallible

/-!
# The ClientHello reader of layer 4

A TLS client speaks first, and what it says, the ClientHello, decides where its connection is
routed. The message arrives in records, cut anywhere; a cursor walks over it without putting the
pieces together.

`parse` is written over any `FieldReader`. The one it is run with is `Cursor`, a position in the
bytes of the wire.
-/

namespace Pingclair

open ByteText AsciiCase

namespace Hello

/-! ### The reader -/

inductive ParseError where
  /-- The input is too short; the size it must have for another attempt. -/
  | more (size : Nat)
  | declined

class FieldReader (γ : Type) where
  left : γ → Nat
  withLeft : γ → Nat → γ
  byte : γ → Except ParseError (UInt8 × γ)
  /-- Splits off a field; the second part is what follows it. -/
  take : γ → Nat → Except ParseError (γ × γ)

export FieldReader (left withLeft byte take)

structure ClientHello (γ : Type) where
  sni : Option γ
  alpn : Option γ

section

variable {γ : Type} [FieldReader γ]

def word (field : γ) : Except ParseError (Nat × γ) := do
  let (high, field) ← byte field
  let (low, field) ← byte field
  return (high.toNat * 256 + low.toNat, field)

def bytesMatch (insensitive : Bool) : γ → Bytes → Bool
  | _, [] => true
  | field, expected :: rest =>
    match byte field with
    | .error _ => false
    | .ok (actual, field) =>
      (if insensitive then lower actual == lower expected else actual == expected) &&
        bytesMatch insensitive field rest

def equals (field : γ) (bytes : Bytes) (insensitive : Bool) : Bool :=
  left field == bytes.length && bytesMatch insensitive field bytes

def ClientHello.matchesSni (hello : ClientHello γ) (name : Bytes) : Bool :=
  hello.sni.any fun sni => equals sni name true

/-- Looks for a protocol in a list; every turn reads at least one byte of it. -/
def protocolsOffer (protocol : Bytes) : (turns : Nat) → γ → Bool
  | 0, _ => false
  | turns + 1, protocols =>
    if left protocols = 0 then false
    else
      match byte protocols with
      | .error _ => false
      | .ok (length, protocols) =>
        match take protocols length.toNat with
        | .error _ => false
        | .ok (field, protocols) =>
          equals field protocol false || protocolsOffer protocol turns protocols

def ClientHello.offersAlpn (hello : ClientHello γ) (protocol : Bytes) : Bool :=
  hello.alpn.any fun protocols => protocolsOffer protocol (left protocols) protocols

/-- Repeats a step while there is something left of a field. The step must read something, so
that as many turns as there are bytes are enough. -/
def whileLeft {σ : Type} (body : γ → σ → Except ParseError (γ × σ)) :
    (turns : Nat) → γ → σ → Except ParseError σ
  | 0, _, state => .ok state
  | turns + 1, field, state =>
    if left field = 0 then .ok state
    else do
      let (field, state) ← body field state
      whileLeft body turns field state

/-- The type and the length in front of the message, then all of it. -/
def readHandshake (input : γ) : Except ParseError γ := do
  let (kind, input) ← byte input
  if kind ≠ 1 then .error .declined
  else
    let (high, input) ← byte input
    let (low, input) ← word input
    let length := high.toNat * 65536 + low
    let (hello, _) ← take (withLeft input length) length
    return hello

/-- Everything in front of the extensions: version and random, session, ciphers, compression. -/
def skipFixed (hello : γ) : Except ParseError γ := do
  let (_, hello) ← take hello 34
  let (session, hello) ← byte hello
  if 32 < session.toNat then .error .declined
  else
    let (_, hello) ← take hello session.toNat
    let (ciphers, hello) ← word hello
    if ciphers = 0 ∨ ciphers % 2 ≠ 0 then .error .declined
    else
      let (_, hello) ← take hello ciphers
      let (compression, hello) ← byte hello
      if compression.toNat = 0 then .error .declined
      else
        let (_, hello) ← take hello compression.toNat
        return hello

def readSni (extension : γ) : Except ParseError γ := do
  let (length, extension) ← word extension
  if length = 0 ∨ length ≠ left extension then .error .declined
  else
    let (kind, extension) ← byte extension
    if kind ≠ 0 then .error .declined
    else
      let (name, extension) ← word extension
      if name = 0 ∨ name ≠ left extension then .error .declined
      else
        let (field, _) ← take extension name
        return field

def checkProtocol (protocols : γ) (_ : Unit) : Except ParseError (γ × Unit) := do
  let (length, protocols) ← byte protocols
  if length.toNat = 0 then .error .declined
  else
    let (_, protocols) ← take protocols length.toNat
    return (protocols, ())

def readAlpn (extension : γ) : Except ParseError γ := do
  let (length, extension) ← word extension
  if length = 0 ∨ length ≠ left extension then .error .declined
  else
    whileLeft checkProtocol (left extension) extension ()
    return extension

/-- What the extensions read so far said. -/
structure Progress (γ : Type) extends ClientHello γ where
  sawSni : Bool
  sawAlpn : Bool

def readExtension (progress : Progress γ) (kind : Nat) (extension : γ) :
    Except ParseError (Progress γ) :=
  if kind = 0 then
    if progress.sawSni then .error .declined
    else do
      let name ← readSni extension
      return { progress with sawSni := true, sni := some name }
  else if kind = 16 then
    if progress.sawAlpn then .error .declined
    else do
      let protocols ← readAlpn extension
      return { progress with sawAlpn := true, alpn := some protocols }
  else .ok progress

def nextExtension (hello : γ) (progress : Progress γ) : Except ParseError (γ × Progress γ) := do
  let (kind, hello) ← word hello
  let (length, hello) ← word hello
  let (extension, hello) ← take hello length
  let progress ← readExtension progress kind extension
  return (hello, progress)

def readBody (hello : γ) : Except ParseError (ClientHello γ) := do
  let hello ← skipFixed hello
  if left hello = 0 then return ⟨none, none⟩
  else
    let (extensions, hello) ← word hello
    if extensions ≠ left hello then .error .declined
    else
      let progress ← whileLeft nextExtension (left hello) hello ⟨⟨none, none⟩, false, false⟩
      return progress.toClientHello

def parse (input : γ) : Except ParseError (ClientHello γ) := do
  let hello ← readHandshake input
  readBody hello

end

/-- A position in the bytes of the wire. The record it is in ends at `stop`; `left` bytes belong
to the field. -/
structure Cursor where
  wire : Bytes
  pos : Nat
  stop : Nat
  left : Nat
  inside : pos ≤ stop ∧ stop ≤ wire.length

namespace Cursor

/-- Moves to the next record while there is nothing left in the present one. -/
def record (c : Cursor) : Except ParseError Cursor :=
  if c.pos = c.stop then
    if _h : c.wire.length < c.pos + 5 then .error (.more (c.pos + 5))
    else
      match c.wire.drop c.pos with
      | kind :: major :: _ :: high :: low :: _ =>
        if kind ≠ 22 ∨ major ≠ 3 then .error .declined
        else
          let length := high.toNat * 256 + low.toNat
          if hstop : c.wire.length < c.pos + 5 + length then .error (.more (c.pos + 5 + length))
          else record
            { c with
              pos := c.pos + 5
              stop := c.pos + 5 + length
              inside := ⟨Nat.le_add_right _ _, Nat.not_lt.mp hstop⟩ }
      | _ => .error .declined
  else .ok c
termination_by c.wire.length - c.pos
decreasing_by omega

theorem pos_lt_stop_of_record {c c' : Cursor} (h : c.record = .ok c') : c'.pos < c'.stop := by
  fun_induction record c with
  | case1 => cases h
  | case2 => cases h
  | case3 => cases h
  | case4 _ _ _ _ _ _ _ _ _ _ _ _ _ ih => exact ih h
  | case5 => cases h
  | case6 _ hne =>
    cases h
    exact Nat.lt_of_le_of_ne c'.inside.1 hne

def advance (c : Cursor) (amount : Nat) (h : amount ≤ c.stop - c.pos) : Cursor :=
  { c with
    pos := c.pos + amount
    left := c.left - amount
    inside := by
      have := c.inside
      omega }

def byte (c : Cursor) : Except ParseError (UInt8 × Cursor) :=
  if c.left = 0 then .error .declined
  else
    match h : c.record with
    | .error e => .error e
    | .ok c =>
      have hlt := pos_lt_stop_of_record h
      .ok (c.wire.get ⟨c.pos, Nat.lt_of_lt_of_le hlt c.inside.2⟩, c.advance 1 (by omega))

def skip (c : Cursor) (remaining : Nat) : Except ParseError Cursor :=
  if remaining = 0 then .ok c
  else
    match h : c.record with
    | .error e => .error e
    | .ok c =>
      have _hlt := pos_lt_stop_of_record h
      skip (c.advance (min remaining (c.stop - c.pos)) (Nat.min_le_right _ _))
        (remaining - min remaining (c.stop - c.pos))
termination_by remaining
decreasing_by omega

def take (c : Cursor) (length : Nat) : Except ParseError (Cursor × Cursor) :=
  if c.left < length then .error .declined
  else do
    let rest ← c.skip length
    return ({ c with left := length }, rest)

instance : FieldReader Cursor where
  left := Cursor.left
  withLeft c left := { c with left := left }
  byte := byte
  take := take

/-- The cursor in front of the first record, over a message whose length is not known yet. -/
def start (wire : Bytes) : Cursor := ⟨wire, 0, 0, u64Max, Nat.le_refl 0, Nat.zero_le _⟩

end Cursor

/-- A verdict over the first bytes of a connection. -/
inductive Classification where
  | needMore (size : Nat)
  | notTls
  | tls (hello : ClientHello Cursor)

def classify (wire : Bytes) : Classification :=
  if wire.head?.any (· ≠ 22) then .notTls
  else
    match parse (Cursor.start wire) with
    | .ok hello => .tls hello
    | .error (.more size) => .needMore size
    | .error .declined => .notTls

end Hello

end Pingclair
