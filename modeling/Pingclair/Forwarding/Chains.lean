import Pingclair.Http.HeaderMap
import Pingclair.Lib.Fallible
import Pingclair.Lib.IpAddr

/-!
# Forwarding chains

`X-Forwarded-For` is a list of addresses, `Forwarded` a list of elements of `name=value` pairs, to
which each hop adds itself. Both are read as one chain over all fields of the name, or not at all.
Header text is ASCII, so its characters are its bytes.
-/

namespace Pingclair

open ByteText AsciiCase Fallible

def maxForwardedHops : Nat := 32

abbrev comma : UInt8 := 0x2C
abbrev quote : UInt8 := 0x22
abbrev backslash : UInt8 := 0x5C
abbrev semicolon : UInt8 := 0x3B
abbrev equals : UInt8 := 0x3D
abbrev underscore : UInt8 := 0x5F

def unquoted (value : Bytes) : Bytes :=
  ((value.dropPrefix? [quote]).bind (·.dropSuffix? [quote])).getD value

def parseForwardedIp (value : Bytes) : Option IpAddr :=
  let value := unquoted (trim value)
  IpAddr.parse value <|> IpAddr.parseSocket value <|>
    ((value.dropPrefix? [0x5B]).bind (·.dropSuffix? [0x5D])).bind IpAddr.parse

/-- A chain as far as it has been read, and the empty elements seen. -/
structure ChainState (α : Type) where
  chain : List α := []
  seen : Nat := 0

namespace ChainState

variable {α : Type}

def skip (state : ChainState α) (element : Bytes) : Except Unit (Bool × ChainState α) :=
  if trim element ≠ [] then .ok (false, state)
  else if state.seen + 1 > maxForwardedHops then .error ()
  else .ok (true, { state with seen := state.seen + 1 })

def push (parse : Bytes → Except Unit α) (state : ChainState α) (element : Bytes) :
    Except Unit (ChainState α) := do
  let (skipped, state) ← state.skip element
  if skipped then return state
  if state.chain.length ≥ maxForwardedHops then throw ()
  return { state with chain := state.chain ++ [← parse element] }

def finish (state : ChainState α) : Except Unit (Option (List α)) :=
  if state.chain = [] then .error () else .ok (some state.chain)

end ChainState

def forwardedField (http : HttpLib) (state : ChainState IpAddr) (value : Bytes) :
    Except Unit (ChainState IpAddr) := do
  let value ← okOr () (http.toStr value)
  (value.splitOn comma).foldlM (ChainState.push fun item => okOr () (parseForwardedIp item)) state

/-- Every field with the name, as one list of addresses. `none` when there is no field. -/
def parseForwardedChain (http : HttpLib) (headers : http.HeaderMap) (name : Bytes) :
    Except Unit (Option (List IpAddr)) := do
  let values := http.getAll headers name
  if values = [] then return none
  (← values.foldlM (forwardedField http) {}).finish

section

variable {http : HttpLib} {headers : http.HeaderMap} {name value element : Bytes}
  {lines before : List Bytes} {address : IpAddr}

theorem parseForwardedIp_of_bare (had : IpAddr.parse (trim element) = some address) :
    parseForwardedIp element = some address := by
  have hpl : unquoted (trim element) = trim element := by
    rw [unquoted]
    cases hqu : (trim element).dropPrefix? [quote] with
    | none => rfl
    | some i =>
      -- a quote begins no address
      rw [dropPrefix?_eq_some.mp hqu, List.singleton_append,
        IpAddr.parse_eq_none (by decide) (by decide)] at had
      simp at had
  rw [parseForwardedIp, hpl, had]
  rfl

theorem push_of_bare (had : IpAddr.parse (trim element) = some address) {s s' : ChainState IpAddr}
    (hpu : s.push (fun item => okOr () (parseForwardedIp item)) element = .ok s') :
    s'.chain = s.chain ++ [address] := by
  have hne : trim element ≠ [] := by
    intro h
    rw [h] at had
    simp at had
  rw [ChainState.push, ChainState.skip, if_pos hne, parseForwardedIp_of_bare had] at hpu
  by_cases hfull : s.chain.length ≥ maxForwardedHops
  · simp [hfull, bind, Except.bind, throw, throwThe, MonadExceptOf.throw] at hpu
  · simp only [hfull, okOr, bind, Except.bind, pure, Except.pure] at hpu
    cases hpu
    rfl

/-- A chain that could be read ends with the address its last field ends with. -/
theorem parseForwardedChain_last (hfld : http.getAll headers name = lines ++ [value])
    (hv : value.splitOn comma = before ++ [element])
    (had : IpAddr.parse (trim element) = some address) {chain : Option (List IpAddr)}
    (hchn : parseForwardedChain http headers name = .ok chain) :
    ∃ front, chain = some (front ++ [address]) := by
  rw [parseForwardedChain, hfld, if_neg (by simp)] at hchn
  obtain ⟨s, hsta, hf⟩ := bind_eq_ok.mp hchn
  obtain ⟨_, _, hla⟩ := foldlM_concat_eq_ok.mp hsta
  obtain ⟨text, ht, hitems⟩ := bind_eq_ok.mp hla
  rw [(http.toStr_eq (okOr_eq_ok.mp ht)).1, hv] at hitems
  obtain ⟨p, _, hpu⟩ := foldlM_concat_eq_ok.mp hitems
  refine ⟨p.chain, ?_⟩
  rw [ChainState.finish, push_of_bare had hpu, if_neg (by simp)] at hf
  exact (Except.ok.inj hf).symm

end

/-- The front of a text up to a delimiter outside quotes, and the rest behind the delimiter.
An unterminated quote or a dangling escape is an error. -/
def quotedNext (delimiter : UInt8) : (quoted escaped : Bool) → Bytes →
    Except Unit (Bytes × Option Bytes)
  | quoted, escaped, [] => if quoted || escaped then .error () else .ok ([], none)
  | quoted, escaped, b :: rest =>
    let more (quoted escaped : Bool) :=
      (quotedNext delimiter quoted escaped rest).map fun (front, rest) => (b :: front, rest)
    if escaped then more quoted false
    else if quoted && b == backslash then more quoted true
    else if b = quote then more (!quoted) false
    else if b = delimiter && !quoted then .ok ([], some rest)
    else more quoted false

theorem length_of_quotedNext {delimiter : UInt8} {quoted escaped : Bool} {s front rest : Bytes}
    (h : quotedNext delimiter quoted escaped s = .ok (front, some rest)) :
    rest.length < s.length := by
  induction s generalizing quoted escaped front with
  | nil => cases quoted <;> cases escaped <;> simp [quotedNext] at h
  | cons b s ih =>
    have hmo : ∀ {quoted escaped front}, (quotedNext delimiter quoted escaped s).map
        (fun p => (b :: p.1, p.2)) = .ok (front, some rest) → rest.length < (b :: s).length := by
      intro quoted escaped front h
      obtain ⟨⟨front', rest'⟩, hnx, heq⟩ := map_eq_ok.mp h
      cases heq
      exact Nat.lt_succ_of_lt (ih hnx)
    rw [quotedNext] at h
    split at h
    · exact hmo h
    split at h
    · exact hmo h
    split at h
    · exact hmo h
    split at h
    · cases h
      exact Nat.lt_succ_self _
    · exact hmo h

/-- The trimmed pieces of a text between delimiters outside quotes. An error ends the list. -/
def quotedSplit (delimiter : UInt8) (s : Bytes) : List (Except Unit Bytes) :=
  match _hnext : quotedNext delimiter false false s with
  | .error _ => [.error ()]
  | .ok (front, none) => [.ok (trim front)]
  | .ok (front, some rest) => .ok (trim front) :: quotedSplit delimiter rest
termination_by s.length
decreasing_by exact length_of_quotedNext _hnext

def isAsciiControl (b : UInt8) : Bool := b < 0x20 || b == 0x7F

/-- Drops the backslash of every quoted pair. `escaped` says whether one has just been read. -/
def unescape : (escaped : Bool) → Bytes → Except Unit Bytes
  | escaped, [] => if escaped then .error () else .ok []
  | true, b :: rest => (unescape false rest).map (b :: ·)
  | false, b :: rest =>
    if b = backslash then unescape true rest else (unescape false rest).map (b :: ·)

def decodeForwardedValue (value : Bytes) : Except Unit Bytes :=
  match value.dropPrefix? [quote] with
  | none => if value.any isAsciiControl then .error () else .ok value
  | some inner => do
    let inner ← okOr () (inner.dropSuffix? [quote])
    if inner.any isAsciiControl then throw ()
    if backslash ∉ inner then return inner
    unescape false inner

def isDigit (b : UInt8) : Bool := 0x30 ≤ b && b ≤ 0x39

def isAlphanumeric (b : UInt8) : Bool := isUpper b || 0x61 ≤ b && b ≤ 0x7A || isDigit b

/-- An identifier chosen to hide an address: `_name`. -/
def isObfuscated (value : Bytes) : Bool :=
  value.length > 1 && value.head? == some underscore &&
    value.all fun b => isAlphanumeric b || b == dot || b == underscore || b == 0x2D

/-- A node that names no address: `unknown` or `_name`, with or without a port. -/
def isUndisclosedNode (node : Bytes) : Bool :=
  let (name, port) := match splitOnce IpAddr.colon node with
    | some (name, port) => (name, some port)
    | none => (node, none)
  (eqIgnoreCase name (ascii "unknown") || isObfuscated name) && port.all fun port =>
      (port != [] && port.length ≤ 5 && port.all isDigit) || isObfuscated port

/-- What a `for` value names: an address, or nobody (`none`). -/
def forwardedNode (raw : Bytes) : Except Unit (Option IpAddr) := do
  let decoded ← decodeForwardedValue (trim raw)
  match parseForwardedIp decoded with
  | some address => return some address
  | none => if isUndisclosedNode decoded then return none else throw ()

def forwardedParameter (found : Option (Option IpAddr)) (parameter : Except Unit Bytes) :
    Except Unit (Option (Option IpAddr)) := do
  let parameter ← parameter
  if parameter = [] then return found
  let (name, raw) ← okOr () (splitOnce equals parameter)
  if !eqIgnoreCase (trim name) (ascii "for") then return found
  if found.isSome then throw ()
  return some (← forwardedNode raw)

def forwardedElement (element : Bytes) : Except Unit (Option IpAddr) := do
  return ((← (quotedSplit semicolon element).foldlM forwardedParameter none).join)

def rfcForwardedField (http : HttpLib) : ChainState (Option IpAddr) × Nat → Bytes →
    Except Unit (ChainState (Option IpAddr) × Nat)
  | (state, totalBytes), value => do
    let value ← okOr () (http.toStr value)
    let totalBytes := totalBytes + value.length
    if totalBytes > 8192 then throw ()
    let state ← (quotedSplit comma value).foldlM
      (fun state element => do state.push forwardedElement (← element)) state
    return (state, totalBytes)

/-- Every `Forwarded` field, as one chain. A hop that hid its address is `none` in it. -/
def parseRfcForwardedChain (http : HttpLib) (headers : http.HeaderMap) :
    Except Unit (Option (List (Option IpAddr))) := do
  let values := http.getAll headers (ascii "forwarded")
  if values = [] then return none
  (← values.foldlM (rfcForwardedField http) ({}, 0)).1.finish

end Pingclair
