import Pingclair.Lib.Fallible
import Pingclair.Lib.IpAddr
import Pingclair.Lib.Numerals
import Pingclair.Lib.Utf8

/-!
# The PROXY protocol

A listener behind a trusted proxy reads, before anything else, a header that names the client: a
line of text (version 1) or a block of bytes (version 2). What follows it belongs to the request.

A stream is the list of the bytes that are to come, up to its end.
-/

namespace Pingclair.ProxyProtocol

open ByteText Numerals Fallible

inductive HeaderError
  | unexpectedEof
  | invalidData (message : String)
  deriving DecidableEq

def crlf : Bytes := [0x0D, 0x0A]

def v2Signature : Bytes := crlf ++ crlf ++ [0x00] ++ crlf ++ ascii "QUIT" ++ [0x0A]

def maxV1HeaderBytes : Nat := 108

def maxV2PayloadBytes : Nat := 512

def ensure (condition : Bool) (message : String) : Except HeaderError Unit :=
  if condition then .ok () else .error (.invalidData message)

def orInvalid {α : Type} (value : Option α) (message : String) : Except HeaderError α :=
  okOr (.invalidData message) value

def readExact (n : Nat) (stream : Bytes) : Except HeaderError (Bytes × Bytes) :=
  if n ≤ stream.length then .ok (stream.take n, stream.drop n) else .error .unexpectedEof

def readLine (line : Bytes) : (stream : Bytes) → Except HeaderError (Bytes × Bytes)
  | [] =>
    if crlf.isSuffixOf line then .ok (line, [])
    else if maxV1HeaderBytes ≤ line.length then
      .error (.invalidData "PROXY protocol v1 header exceeds 108 bytes")
    else .error .unexpectedEof
  | b :: stream =>
    if crlf.isSuffixOf line then .ok (line, b :: stream)
    else if maxV1HeaderBytes ≤ line.length then
      .error (.invalidData "PROXY protocol v1 header exceeds 108 bytes")
    else readLine (line ++ [b]) stream

def wordsFrom (word : Bytes) : Bytes → List Bytes
  | [] => if word.isEmpty then [] else [word]
  | b :: rest =>
    if isAsciiWhitespace b then
      if word.isEmpty then wordsFrom [] rest else word :: wordsFrom [] rest
    else wordsFrom (word ++ [b]) rest

def splitAsciiWhitespace (s : Bytes) : List Bytes := wordsFrom [] s

def familyMatches (family : Bytes) : IpAddr → IpAddr → Bool
  | .v4 _, .v4 _ => family = ascii "TCP4"
  | .v6 _, .v6 _ => family = ascii "TCP6"
  | _, _ => false

def parsePort (text : Bytes) : Option Nat := parseUnsigned 65535 text

def parseLine (line : Bytes) : Except HeaderError (IpAddr × Nat) :=
  if !Utf8.valid line then .error (.invalidData "PROXY v1 header is not ASCII")
  else
    match splitAsciiWhitespace line with
    | [proxy, family, source, destination, sourcePort, destinationPort] => do
      ensure (proxy = ascii "PROXY") "PROXY v1 header must contain six fields"
      let source ← orInvalid (IpAddr.parse source) "invalid PROXY v1 source address"
      let destination ← orInvalid (IpAddr.parse destination) "invalid PROXY v1 destination address"
      ensure (familyMatches family source destination)
        "PROXY v1 address family does not match its addresses"
      let port ← orInvalid (parsePort sourcePort) "invalid PROXY v1 source port"
      let _ ← orInvalid (parsePort destinationPort) "invalid PROXY v1 destination port"
      pure (source, port)
    | _ => .error (.invalidData "PROXY v1 header must contain six fields")

def readV1Header (line stream : Bytes) : Except HeaderError ((IpAddr × Nat) × Bytes) := do
  let (line, stream) ← readLine line stream
  let client ← parseLine (line.take (line.length - 2))
  pure (client, stream)

def word (payload : Bytes) (i : Nat) : Nat :=
  (payload.getD i 0).toNat * 256 + (payload.getD (i + 1) 0).toNat

def parseBlock (familyProtocol : UInt8) (payload : Bytes) : Except HeaderError (IpAddr × Nat) :=
  if familyProtocol = 0x11 ∧ 12 ≤ payload.length then
    .ok (.v4 (.ofFn fun i => payload.getD i 0), word payload 8)
  else if familyProtocol = 0x21 ∧ 36 ≤ payload.length then
    .ok (.v6 (.ofFn fun i => (word payload (2 * i)).toUInt16), word payload 32)
  else .error (.invalidData "PROXY v2 requires a TCP over IPv4 or IPv6 address block")

def readV2Header : (stream : Bytes) → Except HeaderError ((IpAddr × Nat) × Bytes)
  | versionCommand :: familyProtocol :: high :: low :: stream => do
    let payloadLength := high.toNat * 256 + low.toNat
    ensure (versionCommand = 0x21) "PROXY v2 requires version 2 and the PROXY command"
    ensure (payloadLength ≤ maxV2PayloadBytes) "PROXY v2 payload exceeds 512 bytes"
    let (payload, stream) ← readExact payloadLength stream
    let client ← parseBlock familyProtocol payload
    pure (client, stream)
  | _ => .error .unexpectedEof

def readProxyProtocolHeader (stream : Bytes) : Except HeaderError ((IpAddr × Nat) × Bytes) := do
  let (front, stream) ← readExact 12 stream
  if front = v2Signature then readV2Header stream
  else if (ascii "PROXY ").isPrefixOf front then readV1Header front stream
  else .error (.invalidData "missing PROXY protocol v1 or v2 signature")

def DecimalPort (text : Bytes) (port : Nat) : Prop :=
  text ≠ [] ∧ parseDigits 0 text = some port ∧ port ≤ 65535

/-- The fields of a version 1 header for a client, with ports of some spelling. -/
def Fields (spelled : Bytes → Nat → Prop) (client : IpAddr × Nat) (fields : List Bytes) : Prop :=
  ∃ family source destination sourcePort destinationPort address port,
    fields = [ascii "PROXY", family, source, destination, sourcePort, destinationPort] ∧
      IpAddr.parse source = some client.1 ∧ IpAddr.parse destination = some address ∧
      familyMatches family client.1 address = true ∧ spelled sourcePort client.2 ∧
      spelled destinationPort port

def EndsAtFirst (header : Bytes) : Prop := ∀ k < header.length, ¬crlf <:+ header.take k

/-- A version 1 header with single spaces between its fields. -/
def V1Line (client : IpAddr × Nat) (header : Bytes) : Prop :=
  ∃ fields, header = [0x20].intercalate fields ++ crlf ∧ EndsAtFirst header ∧
    header.length ≤ maxV1HeaderBytes ∧ Fields DecimalPort client fields

/-- A version 1 header whose fields any whitespace may separate, and follow. -/
def V1Header (client : IpAddr × Nat) (header : Bytes) : Prop :=
  ∃ text, header = text ++ crlf ∧ EndsAtFirst header ∧ header.length ≤ maxV1HeaderBytes ∧
    ascii "PROXY " <+: header ∧ Utf8.valid text = true ∧
    Fields DecimalPort client (splitAsciiWhitespace text)

def bytes16 (n : Nat) : Bytes := [(n / 256).toUInt8, (n % 256).toUInt8]

def octets : IpAddr → Bytes
  | .v4 octets => octets.toList
  | .v6 segments => segments.toList.flatMap fun segment => bytes16 segment.toNat

def familyProtocol : IpAddr → UInt8
  | .v4 _ => 0x11
  | .v6 _ => 0x21

def addressBlock (source destination : IpAddr × Nat) : Bytes :=
  octets source.1 ++ octets destination.1 ++ bytes16 source.2 ++ bytes16 destination.2

def V2Payload (client : IpAddr × Nat) (payload : Bytes) : Prop :=
  ∃ destination more, familyProtocol destination.1 = familyProtocol client.1 ∧
    client.2 < 65536 ∧ destination.2 < 65536 ∧ payload = addressBlock client destination ++ more

def V2Header (client : IpAddr × Nat) (header : Bytes) : Prop :=
  ∃ payload, V2Payload client payload ∧ payload.length ≤ maxV2PayloadBytes ∧
    header = v2Signature ++ [0x21, familyProtocol client.1] ++ bytes16 payload.length ++ payload

theorem bytes16_word (high low : UInt8) : bytes16 (high.toNat * 256 + low.toNat) = [high, low] := by
  have hlo := low.toNat_lt
  have hdiv : (high.toNat * 256 + low.toNat) / 256 = high.toNat := by omega
  have hmod : (high.toNat * 256 + low.toNat) % 256 = low.toNat := by omega
  rw [bytes16, hdiv, hmod]
  simp

variable {n : Nat} {front rest stream line : Bytes}

theorem word_bytes16 (h : n < 65536) (rest : Bytes) : word (bytes16 n ++ rest) 0 = n := by
  simp [word, bytes16]
  omega

theorem word_append_right (rest : Bytes) (i : Nat) :
    word (front ++ rest) (front.length + i) = word rest i := by
  simp only [word, List.getD_eq_getElem?_getD]
  rw [List.getElem?_append_right (by omega), List.getElem?_append_right (by omega)]
  simp [Nat.add_assoc]

theorem word_cons_cons (high low : UInt8) (rest : Bytes) (i : Nat) :
    word (high :: low :: rest) (i + 2) = word rest i := by
  simp [word]

theorem word_flatMap {segs : List UInt16} {i : Nat} (hi : i < segs.length) (rest : Bytes) :
    word (segs.flatMap (fun seg => bytes16 seg.toNat) ++ rest) (2 * i) = (segs[i]).toNat := by
  induction segs generalizing i with
  | nil => simp at hi
  | cons seg segs ih =>
    rw [List.flatMap_cons, List.append_assoc]
    cases i with
    | zero => exact word_bytes16 seg.toNat_lt _
    | succ i =>
      rw [bytes16, Nat.mul_add, List.cons_append, List.cons_append, List.nil_append,
        word_cons_cons, ih (by simpa using hi)]
      rfl

variable {s : Bytes}

theorem flatMap_ofFn_word (n : Nat) (h : 2 * n ≤ s.length) :
    (List.ofFn fun i : Fin n => (word s (2 * i)).toUInt16).flatMap
      (fun seg => bytes16 seg.toNat) = s.take (2 * n) := by
  induction n generalizing s with
  | zero => simp
  | succ n ih =>
    match s, h with
    | high :: low :: s, h =>
      have hword : word (high :: low :: s) 0 < 65536 := by
        have := high.toNat_lt
        have := low.toNat_lt
        simp [word]
        omega
      have hhd : ((word (high :: low :: s) 0).toUInt16).toNat = high.toNat * 256 + low.toNat := by
        simp [Nat.mod_eq_of_lt hword]
        rfl
      rw [List.ofFn_succ, List.flatMap_cons]
      simp only [Fin.val_zero, Nat.mul_zero, Fin.val_succ, Nat.mul_add, Nat.mul_one, word_cons_cons,
        hhd, bytes16_word]
      rw [ih (by simp at h; omega)]
      rfl

theorem v4_octets (o : Vector UInt8 4) (rest : Bytes) :
    (Vector.ofFn fun i : Fin 4 => (o.toList ++ rest).getD i 0) = o := by
  simp [List.getElem?_append_left]

theorem v6_octets (segments : Vector UInt16 8) (rest : Bytes) :
    (Vector.ofFn fun i : Fin 8 => (word (octets (.v6 segments) ++ rest) (2 * i)).toUInt16) =
      segments := by
  ext i hi
  rw [Vector.getElem_ofFn, octets, word_flatMap (by simpa using hi)]
  simp

theorem octets_v4 (h : 4 ≤ s.length) : octets (.v4 (.ofFn fun i => s.getD i 0)) = s.take 4 := by
  apply List.ext_getElem
  · simp [octets, h]
  · intro i hi hi'
    simp [octets] at hi ⊢
    rw [List.getElem?_eq_getElem (by omega), Option.getD_some]

theorem octets_v6 (h : 16 ≤ s.length) :
    octets (.v6 (.ofFn fun i => (word s (2 * i)).toUInt16)) = s.take 16 := by
  rw [← flatMap_ofFn_word 8 h]
  congr 1

theorem bytes16_word_at {i : Nat} (h : i + 2 ≤ s.length) :
    bytes16 (word s i) = (s.drop i).take 2 := by
  rw [word, bytes16_word, List.drop_eq_getElem_cons (by omega), List.take_succ_cons,
    List.drop_eq_getElem_cons (by omega), List.take_succ_cons]
  simp [show i < s.length by omega, show i + 1 < s.length by omega]

theorem word_lt (s : Bytes) (i : Nat) : word s i < 65536 := by
  have hhigh := (s.getD i 0).toNat_lt
  have hlo := (s.getD (i + 1) 0).toNat_lt
  rw [word]
  omega

theorem word_block {i : Nat} (hi : front.length = i) (hn : n < 65536) (rest : Bytes) :
    word (front ++ (bytes16 n ++ rest)) i = n := by
  rw [← hi, ← Nat.add_zero front.length, word_append_right, word_bytes16 hn]

theorem take_block (h : 2 * n + 4 ≤ s.length) :
    s.take (2 * n + 4) = s.take n ++ (s.drop n).take n ++ bytes16 (word s (2 * n)) ++
      bytes16 (word s (2 * n + 2)) := by
  rw [bytes16_word_at (by omega), bytes16_word_at (by omega), ← List.take_add, ← Nat.two_mul,
    ← List.take_add, ← List.take_add]

variable {client : IpAddr × Nat}

theorem parseBlock_eq_ok_iff {family : UInt8} {payload : Bytes} :
    parseBlock family payload = .ok client ↔
      family = familyProtocol client.1 ∧ V2Payload client payload := by
  constructor
  · intro h
    rw [parseBlock] at h
    split at h
    · next hv4 =>
      cases h
      refine ⟨hv4.1, (.v4 (.ofFn fun i => (payload.drop 4).getD i 0), word payload 10),
        payload.drop 12, rfl, word_lt _ _, word_lt _ _, ?_⟩
      have hblk : payload.take 12 = _ := take_block (n := 4) hv4.2
      rw [addressBlock, octets_v4 (by omega), octets_v4 (by simp; omega)]
      exact (List.take_append_drop 12 payload).symm.trans (congrArg (· ++ _) hblk)
    · split at h
      · next hv6 =>
        cases h
        refine ⟨hv6.1, (.v6 (.ofFn fun i => (word (payload.drop 16) (2 * i)).toUInt16),
          word payload 34), payload.drop 36, by simp [familyProtocol], word_lt _ _,
          word_lt _ _, ?_⟩
        have hblk := take_block (s := payload) (n := 16) (by omega)
        rw [addressBlock, octets_v6 (by omega), octets_v6 (by simp; omega)]
        exact (List.take_append_drop 36 payload).symm.trans (congrArg (· ++ _) hblk)
      · simp at h
  · rintro ⟨rfl, d, more, hfam, hpt, hpt', rfl⟩
    obtain ⟨address, port⟩ := client
    obtain ⟨address', port'⟩ := d
    -- the addresses are of one family, and so of one length
    cases address with
    | v4 o =>
      cases address' with
      | v6 _ => simp [familyProtocol] at hfam
      | v4 o' =>
        simp only [addressBlock, List.append_assoc]
        rw [parseBlock, if_pos ⟨rfl, by simp [octets, bytes16]; omega⟩]
        rw [show octets (.v4 o) = o.toList from rfl, v4_octets, ← List.append_assoc,
          word_block (by simp [octets]) hpt]
    | v6 ss =>
      cases address' with
      | v4 _ => simp [familyProtocol] at hfam
      | v6 ss' =>
        simp only [addressBlock, List.append_assoc]
        rw [parseBlock, if_neg (by simp [familyProtocol]),
          if_pos ⟨rfl, by simp [octets, bytes16]; omega⟩, v6_octets, ← List.append_assoc,
          word_block (by simp [octets, bytes16]) hpt]

/-! ### Reading -/

theorem ensure_eq_ok {cond : Bool} {msg : String} {u : Unit} :
    ensure cond msg = .ok u ↔ cond = true := by
  cases cond <;> simp [ensure]

theorem orInvalid_eq_ok {α : Type} {value : Option α} {msg : String} {a : α} :
    orInvalid value msg = .ok a ↔ value = some a := okOr_eq_ok

theorem readExact_eq_ok :
    readExact n stream = .ok (front, rest) ↔ stream = front ++ rest ∧ front.length = n := by
  rw [readExact]
  split
  · next hn =>
    rw [Except.ok.injEq, Prod.mk.injEq]
    constructor
    · rintro ⟨rfl, rfl⟩
      exact ⟨(List.take_append_drop n stream).symm, List.length_take_of_le hn⟩
    · rintro ⟨rfl, rfl⟩
      exact ⟨List.take_left, List.drop_left⟩
  · next hn =>
    refine iff_of_false (by simp) ?_
    rintro ⟨rfl, rfl⟩
    simp at hn

/-- A line that ends where it first has a CR LF, none sought in front of an offset. -/
structure LineFrom (n : Nat) (line : Bytes) : Prop where
  ends : crlf <:+ line
  length_le : line.length ≤ maxV1HeaderBytes
  first : ∀ k, n ≤ k → k < line.length → ¬crlf <:+ line.take k

theorem LineFrom.not_ends {more : Bytes} {b : UInt8}
    (h : LineFrom line.length (line ++ b :: more)) : ¬crlf <:+ line := by
  have := h.first line.length le_rfl (by simp)
  rwa [List.take_left] at this

/-- A line that has its end is read no further. -/
theorem readLine_of_ends {full : Bytes} (hli : line.length ≤ maxV1HeaderBytes)
    (hen : crlf <:+ line) :
    readLine line stream = .ok (full, rest) ↔
      ∃ taken, stream = taken ++ rest ∧ full = line ++ taken ∧ LineFrom line.length full := by
  have hrd : readLine line stream = .ok (line, stream) := by
    cases stream <;> rw [readLine, if_pos (List.isSuffixOf_iff_suffix.mpr hen)]
  rw [hrd, Except.ok.injEq]
  constructor
  · rintro ⟨rfl, rfl⟩
    exact ⟨[], rfl, by simp, hen, hli, fun k hk hlt => absurd hlt (by omega)⟩
  · rintro ⟨taken, rfl, rfl, h⟩
    cases taken with
    | nil => simp
    | cons b taken => exact absurd hen h.not_ends

theorem readLine_eq_ok {full : Bytes} (hli : line.length ≤ maxV1HeaderBytes) :
    readLine line stream = .ok (full, rest) ↔
      ∃ taken, stream = taken ++ rest ∧ full = line ++ taken ∧ LineFrom line.length full := by
  induction stream generalizing line with
  | nil =>
    by_cases hen : crlf <:+ line
    · exact readLine_of_ends hli hen
    · rw [readLine, if_neg (by simpa using hen)]
      refine iff_of_false (by split <;> simp) ?_
      rintro ⟨taken, hni, rfl, h⟩
      obtain ⟨rfl, rfl⟩ := List.append_eq_nil_iff.mp hni.symm
      exact hen (by simpa using h.ends)
  | cons b stream ih =>
    by_cases hen : crlf <:+ line
    · exact readLine_of_ends hli hen
    · rw [readLine, if_neg (by simpa using hen)]
      -- the line goes on, so that at least one byte is taken
      have hlonger {taken : Bytes} (h : LineFrom line.length (line ++ taken)) : taken ≠ [] := by
        rintro rfl
        exact hen (by simpa using h.ends)
      split
      · next hlg =>
        refine iff_of_false (by simp) ?_
        rintro ⟨taken, -, rfl, h⟩
        have hp := List.length_pos_iff.mpr (hlonger h)
        have hle := h.length_le
        rw [List.length_append] at hle
        omega
      · next hsh =>
        rw [ih (by rw [List.length_append, List.length_singleton]; omega)]
        constructor
        · rintro ⟨taken, rfl, rfl, h⟩
          refine ⟨b :: taken, rfl, by simp, h.ends, h.length_le, fun k hk hlt => ?_⟩
          obtain rfl | hk := hk.eq_or_lt
          · simpa using hen
          · exact h.first k (by simp; omega) hlt
        · rintro ⟨taken, hsm, rfl, h⟩
          cases taken with
          | nil => exact absurd rfl (hlonger h)
          | cons b' taken =>
            obtain ⟨rfl, rfl⟩ := List.cons.inj hsm
            refine ⟨taken, rfl, by simp, h.ends, h.length_le, fun k hk hlt => ?_⟩
            exact h.first k (by simp at hk; omega) hlt

theorem parseLine_eq_ok :
    parseLine line = .ok client ↔ Utf8.valid line = true ∧
      Fields (fun text port => parsePort text = some port) client (splitAsciiWhitespace line) := by
  rw [parseLine]
  split
  · next hv => exact iff_of_false (by simp) fun h => by simp [h.1] at hv
  · next hv =>
    rw [Bool.not_eq_true'] at hv
    simp only [hv, true_and]
    split
    · next p family source d s ds hflds =>
      rw [hflds]
      simp only [bind_eq_ok, ensure_eq_ok, orInvalid_eq_ok, decide_eq_true_eq]
      constructor
      · rintro ⟨-, rfl, address, hsrc, address', hdest, -, hfam, port, hpt, port', hpt', hcli⟩
        cases hcli
        exact ⟨family, source, d, s, ds, address', port', rfl, hsrc, hdest, hfam, hpt, hpt'⟩
      · rintro ⟨family, source, d, s, ds, address', port', heq, hsrc, hdest, hfam, hpt, hpt'⟩
        obtain ⟨rfl, rfl, rfl, rfl, rfl, rfl⟩ := heq
        exact ⟨(), rfl, client.1, hsrc, address', hdest, (), hfam, client.2, hpt, port', hpt', rfl⟩
    · next hflds =>
      refine iff_of_false (by simp) ?_
      rintro ⟨family, source, d, s, ds, -, -, heq, -⟩
      exact hflds _ _ _ _ _ _ heq

/-- A version 1 header as it is read: ports are read with a sign, and the end of the line is not
looked for in the twelve bytes that tell the versions apart. -/
def V1Accepted (client : IpAddr × Nat) (header : Bytes) : Prop :=
  12 ≤ header.length ∧ ascii "PROXY " <+: header ∧ LineFrom 12 header ∧
    ∃ text, header = text ++ crlf ∧ Utf8.valid text = true ∧
      Fields (fun text port => parsePort text = some port) client (splitAsciiWhitespace text)

theorem readV1Header_eq_ok (hli : line.length = 12) (hfrt : ascii "PROXY " <+: line) :
    readV1Header line stream = .ok (client, rest) ↔
      ∃ taken, stream = taken ++ rest ∧ V1Accepted client (line ++ taken) := by
  have hlen : line.length ≤ maxV1HeaderBytes := by rw [hli]; decide
  rw [readV1Header, bind_eq_ok]
  constructor
  · rintro ⟨⟨full, l⟩, hrd, h⟩
    obtain ⟨taken, rfl, rfl, hfr⟩ := (readLine_eq_ok hlen).mp hrd
    obtain ⟨client', hps, hok⟩ := bind_eq_ok.mp h
    cases hok
    obtain ⟨text, ht⟩ := hfr.ends
    have htk : (line ++ taken).take ((line ++ taken).length - 2) = text := by
      rw [← ht]
      simp [crlf]
    rw [htk, parseLine_eq_ok] at hps
    exact ⟨taken, rfl, by simp [hli], hfrt.trans (List.prefix_append _ _), hli ▸ hfr,
      text, ht.symm, hps⟩
  · rintro ⟨taken, rfl, -, -, hfr, text, ht, hps⟩
    refine ⟨(line ++ taken, rest), (readLine_eq_ok hlen).mpr ⟨taken, rfl, rfl, hli ▸ hfr⟩, ?_⟩
    refine bind_eq_ok.mpr ⟨client, ?_, rfl⟩
    rw [ht]
    simpa [crlf, parseLine_eq_ok] using hps

theorem readV2Header_eq_ok :
    readV2Header stream = .ok (client, rest) ↔
      ∃ payload, V2Payload client payload ∧ payload.length ≤ maxV2PayloadBytes ∧
        stream = [0x21, familyProtocol client.1] ++ bytes16 payload.length ++ payload ++ rest := by
  rw [readV2Header.eq_def]
  split
  · next v family high low stream =>
    simp only [bind_eq_ok, ensure_eq_ok, decide_eq_true_eq]
    constructor
    · rintro ⟨-, rfl, -, hlen, ⟨payload, l⟩, hrd, client', hps, hok⟩
      cases hok
      obtain ⟨rfl, hpay⟩ := readExact_eq_ok.mp hrd
      obtain ⟨rfl, hblk⟩ := parseBlock_eq_ok_iff.mp hps
      exact ⟨payload, hblk, hpay ▸ hlen, by simp [hpay, bytes16_word]⟩
    · rintro ⟨payload, hpay, hlen, hsm⟩
      obtain ⟨rfl, rfl, rfl, rfl, rfl⟩ := hsm
      have hword := word_bytes16 (n := payload.length) (Nat.lt_of_le_of_lt hlen (by decide)) []
      simp only [word, bytes16, List.append_nil, List.getD_cons_zero, List.getD_cons_succ,
        Nat.zero_add] at hword
      refine ⟨(), rfl, (), ?_, (payload, rest), readExact_eq_ok.mpr ⟨rfl, ?_⟩, client,
        parseBlock_eq_ok_iff.mpr ⟨rfl, hpay⟩, rfl⟩
      · rw [hword]
        exact hlen
      · exact hword.symm
  · next hsh =>
    refine iff_of_false (by simp) ?_
    rintro ⟨payload, -, -, rfl⟩
    exact hsh _ _ _ _ _ rfl

/-- Every stream that is accepted, and what is left of it. -/
theorem readProxyProtocolHeader_eq_ok :
    readProxyProtocolHeader stream = .ok (client, rest) ↔
      ∃ header, stream = header ++ rest ∧ (V1Accepted client header ∨ V2Header client header) := by
  rw [readProxyProtocolHeader, bind_eq_ok]
  constructor
  · rintro ⟨⟨f, l⟩, hrd, h⟩
    obtain ⟨rfl, hfrt⟩ := readExact_eq_ok.mp hrd
    dsimp only at h
    split at h
    · next hv2 =>
      obtain ⟨payload, hpay, hlength, rfl⟩ := readV2Header_eq_ok.mp h
      exact ⟨_, by simp [hv2], .inr ⟨payload, hpay, hlength, rfl⟩⟩
    · split at h
      · next hv1 =>
        obtain ⟨t, rfl, hac⟩ := (readV1Header_eq_ok hfrt (List.isPrefixOf_iff_prefix.mp hv1)).mp h
        exact ⟨f ++ t, by simp, .inl hac⟩
      · simp at h
  · rintro ⟨header, rfl, hac | ⟨payload, hpay, hlength, rfl⟩⟩
    · obtain ⟨hlen, hpx, hfr, hps⟩ := hac
      have hfrt : (header.take 12).length = 12 := List.length_take_of_le hlen
      have hpx' : ascii "PROXY " <+: header.take 12 := List.prefix_take_iff.mpr ⟨hpx, by decide⟩
      have hne : header.take 12 ≠ v2Signature := by
        rintro hv2
        rw [hv2] at hpx'
        exact absurd hpx' (by decide)
      refine ⟨(header.take 12, header.drop 12 ++ rest), readExact_eq_ok.mpr ⟨?_, hfrt⟩, ?_⟩
      · rw [← List.append_assoc, List.take_append_drop]
      · dsimp only
        rw [if_neg hne, if_pos (List.isPrefixOf_iff_prefix.mpr hpx'), readV1Header_eq_ok hfrt hpx']
        refine ⟨header.drop 12, rfl, ?_⟩
        rw [List.take_append_drop]
        exact ⟨hlen, hpx, hfr, hps⟩
    · have hrd : readV2Header ([0x21, familyProtocol client.1] ++ bytes16 payload.length ++
          payload ++ rest) = .ok (client, rest) :=
        readV2Header_eq_ok.mpr ⟨payload, hpay, hlength, rfl⟩
      exact ⟨_, readExact_eq_ok.mpr ⟨by simp, rfl⟩, (if_pos rfl).trans hrd⟩

theorem wordsFrom_append {blanks : Bytes} (hblanks : ∀ b ∈ blanks, isAsciiWhitespace b = true)
    (word : Bytes) : wordsFrom word (s ++ blanks) = wordsFrom word s := by
  induction s generalizing word with
  | nil =>
    rw [List.nil_append]
    induction blanks generalizing word with
    | nil => rfl
    | cons b blanks ih =>
      have hrest := ih fun b hb => hblanks b (by simp [hb])
      simp only [wordsFrom, hblanks b (by simp), if_true, hrest]
      rfl
  | cons b s ih => simp [wordsFrom, ih]

theorem splitAsciiWhitespace_append_crlf (text : Bytes) :
    splitAsciiWhitespace (text ++ crlf) = splitAsciiWhitespace text :=
  wordsFrom_append (by simp [crlf, isAsciiWhitespace]) []

theorem length_flatten_wordsFrom (word s : Bytes) :
    (wordsFrom word s).flatten.length ≤ word.length + s.length := by
  induction s generalizing word with
  | nil => rw [wordsFrom]; split <;> simp
  | cons b s ih =>
    have hblank := ih []
    have hword := ih (word ++ [b])
    rw [wordsFrom]
    split
    · split <;> simp at hblank ⊢ <;> omega
    · simp at hword ⊢
      omega

variable {fields : List Bytes}

theorem Fields.imp {spelled spelled' : Bytes → Nat → Prop} (h : Fields spelled client fields)
    (himp : ∀ text ∈ fields, ∀ port, spelled text port → spelled' text port) :
    Fields spelled' client fields := by
  obtain ⟨family, source, d, s, ds, address, port, rfl, hsrc, hdest, hfam, hpt, hpt'⟩ := h
  exact ⟨family, source, d, s, ds, address, port, rfl, hsrc,
    hdest, hfam, himp _ (by simp) _ hpt, himp _ (by simp) _ hpt'⟩

theorem parsePort_iff {text : Bytes} (h : text.head? ≠ some 0x2B) (port : Nat) :
    parsePort text = some port ↔ DecimalPort text port := by
  have hdg : text.dropPrefix? [0x2B] = none := by
    cases hdr : text.dropPrefix? [0x2B] with
    | none => rfl
    | some rest => exact absurd (by simp [dropPrefix?_eq_some.mp hdr]) h
  rw [parsePort, parseUnsigned, hdg, Option.getD_none, DecimalPort]
  split
  · next hni => simp [hni]
  · next hni => simp [hni]

theorem eq_of_familyMatches {family : Bytes} {source dest : IpAddr}
    (h : familyMatches family source dest = true) :
    family = ascii "TCP4" ∨ family = ascii "TCP6" := by
  rw [familyMatches.eq_def] at h
  split at h
  · exact .inl (of_decide_eq_true h)
  · exact .inr (of_decide_eq_true h)
  · simp at h

theorem Fields.head_ne
    (h : Fields DecimalPort client fields) : ∀ field ∈ fields, field.head? ≠ some 0x2B := by
  obtain ⟨family, source, d, s, ds, address, port, rfl, hsrc,
    hdest, hfam, ⟨-, hpt, -⟩, -, hpt', -⟩ := h
  have had {text : Bytes} {a : IpAddr} (h : IpAddr.parse text = some a) :
      text.head? ≠ some 0x2B := by
    intro hhd
    obtain ⟨rest, rfl⟩ := List.head?_eq_some_iff.mp hhd
    rw [IpAddr.parse_eq_none (by decide) (by decide)] at h
    simp at h
  have hdg {text : Bytes} {n : Nat} (h : parseDigits 0 text = some n) : text.head? ≠ some 0x2B := by
    intro hhd
    obtain ⟨rest, rfl⟩ := List.head?_eq_some_iff.mp hhd
    simp [parseDigits, digitValue] at h
  simp only [List.mem_cons, List.not_mem_nil, or_false, forall_eq_or_imp, forall_eq]
  refine ⟨by decide, ?_, had hsrc, had hdest, hdg hpt, hdg hpt'⟩
  obtain rfl | rfl := eq_of_familyMatches hfam <;> decide

/-- The fields of a header fill the twelve bytes that tell the versions apart. -/
theorem Fields.length_le (h : Fields DecimalPort client fields) : 12 ≤ fields.flatten.length := by
  obtain ⟨family, source, d, s, ds, address, port, rfl, hsrc, hdest, hfam, ⟨hpt, -⟩, hpt', -⟩ := h
  have had {text : Bytes} {a : IpAddr} (h : IpAddr.parse text = some a) : text ≠ [] := by
    rintro rfl
    simp at h
  have hpx : (ascii "PROXY").length = 5 := by decide
  have hlen : family.length = 4 := by
    obtain rfl | rfl := eq_of_familyMatches hfam <;> decide
  have hp := List.length_pos_iff.mpr (had hsrc)
  have hp' := List.length_pos_iff.mpr (had hdest)
  have hp'' := List.length_pos_iff.mpr hpt
  simp only [List.flatten_cons, List.flatten_nil, List.length_append, hpx, hlen]
  omega

/-- A line that is read although its end came early, or although a field carries a sign. -/
def Slipped (header : Bytes) : Prop :=
  ascii "PROXY " <+: header ∧ ((∃ k < 12, crlf <:+ header.take k) ∨
    ∃ field ∈ splitAsciiWhitespace header, field.head? = some 0x2B)

variable {header : Bytes}

theorem V1Accepted.v1Header
    (h : V1Accepted client header) (hslip : ¬Slipped header) : V1Header client header := by
  obtain ⟨-, hpx, hfr, text, rfl, hv, hflds⟩ := h
  rw [Slipped, splitAsciiWhitespace_append_crlf] at hslip
  refine ⟨text, rfl, fun k hk hen => ?_, hfr.length_le, hpx, hv, hflds.imp ?_⟩
  · by_cases hk' : k < 12
    · exact hslip ⟨hpx, .inl ⟨k, hk', hen⟩⟩
    · exact hfr.first k (by omega) hk hen
  · intro field hfld port hpt
    have hhd : field.head? ≠ some 0x2B := fun hhd =>
      hslip ⟨hpx, .inr ⟨field, hfld, hhd⟩⟩
    exact (parsePort_iff hhd port).mp hpt

theorem V1Header.twelve_le (h : V1Header client header) : 12 ≤ header.length := by
  obtain ⟨text, rfl, -, -, -, -, hflds⟩ := h
  have hlen := length_flatten_wordsFrom [] text
  have hle : 12 ≤ (wordsFrom [] text).flatten.length := hflds.length_le
  rw [List.length_nil] at hlen
  rw [List.length_append]
  omega

theorem V1Header.v1Accepted (h : V1Header client header) : V1Accepted client header := by
  have hlen := h.twelve_le
  obtain ⟨text, rfl, hen, hlg, hpx, hv, hflds⟩ := h
  refine ⟨hlen, hpx, ⟨⟨text, rfl⟩, hlg, fun k _ => hen k⟩, text, rfl, hv, ?_⟩
  exact hflds.imp fun field hfld port =>
    (parsePort_iff (hflds.head_ne field hfld) port).mpr

theorem V1Header.not_slipped (h : V1Header client header) : ¬Slipped header := by
  have hlen := h.twelve_le
  obtain ⟨text, rfl, hen, -, -, -, hflds⟩ := h
  rw [Slipped, splitAsciiWhitespace_append_crlf]
  rintro ⟨-, ⟨k, hk, hcrlf⟩ | ⟨field, hfld, hhd⟩⟩
  · exact hen k (by omega) hcrlf
  · exact hflds.head_ne field hfld hhd

theorem V2Header.head? (h : V2Header client header) : header.head? = some 0x0D := by
  obtain ⟨payload, -, -, rfl⟩ := h
  rfl

theorem V2Header.not_slipped (h : V2Header client header) : ¬Slipped header := by
  rintro ⟨⟨rest, rfl⟩, -⟩
  have hhd : (0x50 : UInt8) = 0x0D := Option.some.inj h.head?
  exact absurd hhd (by decide)

/-- A header is read exactly when it is well formed, slips apart, and nothing behind it is. -/
theorem readProxyProtocolHeader_iff (stream rest : Bytes) (client : IpAddr × Nat) :
    (readProxyProtocolHeader stream = .ok (client, rest) → ∃ header, stream = header ++ rest) ∧
      ∀ header, stream = header ++ rest →
        (readProxyProtocolHeader stream = .ok (client, rest) ∧ ¬Slipped header ↔
          V1Header client header ∨ V2Header client header) := by
  refine ⟨fun h => ?_, ?_⟩
  · obtain ⟨header, hsm, -⟩ := readProxyProtocolHeader_eq_ok.mp h
    exact ⟨header, hsm⟩
  rintro header rfl
  rw [readProxyProtocolHeader_eq_ok]
  constructor
  · rintro ⟨⟨header', hhd, h⟩, hslip⟩
    obtain rfl := List.append_cancel_right hhd
    exact h.imp_left fun h => h.v1Header hslip
  · rintro (h | h)
    · exact ⟨⟨header, rfl, .inl h.v1Accepted⟩, h.not_slipped⟩
    · exact ⟨⟨header, rfl, .inr h⟩, h.not_slipped⟩

/-- A stream is read exactly when it begins with a well-formed header. -/
def Exact (stream : Bytes) : Prop :=
  ∀ client rest, readProxyProtocolHeader stream = .ok (client, rest) ↔
    ∃ header, stream = header ++ rest ∧ (V1Line client header ∨ V2Header client header)

def tabbed : Bytes :=
  ascii "PROXY TCP4 203.0.113.7" ++ [0x09] ++ ascii "192.0.2.1 4567 443" ++ crlf

theorem V1Line.five_le_count (h : V1Line client header) : 5 ≤ header.count 0x20 := by
  obtain ⟨fs, rfl, -, -, hflds⟩ := h
  obtain ⟨family, source, d, s, ds, -, -, rfl, -⟩ := hflds
  simp [List.intercalate, List.intersperse]
  omega

theorem not_exact_tab : ¬Exact tabbed := by
  intro h
  have hrd : readProxyProtocolHeader tabbed = .ok ((.v4 #v[203, 0, 113, 7], 4567), []) := by
    decide
  obtain ⟨header, htabbed, hli | hblk⟩ := (h _ _).mp hrd
  all_goals
    rw [List.append_nil] at htabbed
    subst htabbed
  · exact absurd hli.five_le_count (by decide)
  · exact absurd hblk.head? (by decide)

end Pingclair.ProxyProtocol
