import Pingclair.Lib.Escapes
import Pingclair.Lib.Utf8

/-!
# Percent-escapes in request paths

`decodedByte` reads the escape at the front of a text. `decodePathComponent`, which turns a path
component into a filename, and `decodeForMatching`, which turns a request path into the text that
patterns are compared with, are loops over it.
-/

namespace Pingclair.Percent

open ByteText

abbrev backslash : UInt8 := 0x5C

def hexDigit (byte : UInt8) : Option UInt8 :=
  if 0x30 ≤ byte ∧ byte ≤ 0x39 then some (byte - 0x30)
  else if 0x61 ≤ byte ∧ byte ≤ 0x66 then some (byte - 0x61 + 10)
  else if 0x41 ≤ byte ∧ byte ≤ 0x46 then some (byte - 0x41 + 10)
  else none

def hexPair (high low : UInt8) : Option UInt8 := do
  let high ← hexDigit high
  let low ← hexDigit low
  return (high <<< 4) ||| low

def decodedByte : Bytes → Option UInt8
  | mark :: high :: low :: _ => if mark = percent then hexPair high low else none
  | _ => none

/-- Decodes one path component, appending to `out`. `none` when an escape decodes to a
separator or a NUL; what `out` holds by then is discarded by every caller. -/
def decodePathComponent (component out : Bytes) : Option Bytes :=
  match component with
  | [] => some out
  | b :: rest =>
    match decodedByte (b :: rest) with
    | some byte =>
      if byte = slash ∨ byte = backslash ∨ byte = 0 then none
      else decodePathComponent (rest.drop 2) (out ++ [byte])
    | none => decodePathComponent rest (out ++ [b])
termination_by component.length
decreasing_by all_goals simp; try omega

def decodeLoop (bytes decoded : Bytes) : Bytes :=
  match bytes with
  | [] => decoded
  | b :: rest =>
    match decodedByte (b :: rest) with
    | some byte => decodeLoop (rest.drop 2) (decoded ++ [byte])
    | none => decodeLoop rest (decoded ++ [b])
termination_by bytes.length
decreasing_by all_goals simp; try omega

/-- The spelling of a request path that path patterns are compared against: every
well-formed escape decoded once, the query left as it is. -/
def decodeForMatching (target : Bytes) : Bytes :=
  let (path, query) := match splitOnce question target with
    | some (path, _) => (path, target.drop path.length)
    | none => (target, [])
  if percent ∉ path then target
  else
    let decoded := decodeLoop path [] ++ query
    if Utf8.valid decoded then decoded else Utf8.lossy decoded

theorem hexPair_of_left {high low : UInt8} (h : hexDigit high = none) :
    hexPair high low = none := by
  simp [hexPair, h]

theorem hexPair_of_right {high low : UInt8} (h : hexDigit low = none) :
    hexPair high low = none := by
  cases hh : hexDigit high <;> simp [hexPair, hh, h]

def percentEscape : Escape UInt8 where
  mark := percent
  value := hexPair
  value_mark_left _ := hexPair_of_left (by decide)
  value_mark_right _ := hexPair_of_right (by decide)

theorem decodedByte_eq_read (s : Bytes) : decodedByte s = percentEscape.read s := by
  match s with
  | [] | [_] | [_, _] => rfl
  | m :: x :: y :: s => rfl

theorem decodeLoop_eq (s out : Bytes) : decodeLoop s out = out ++ percentEscape.decode s := by
  induction s, out using decodeLoop.induct with
  | case1 out => simp [decodeLoop]
  | case2 out b rest byte hb ih =>
    rw [Escape.decode_cons_some (decodedByte_eq_read _ ▸ hb), decodeLoop]
    simp [hb, ih]
  | case3 out b rest hb ih =>
    rw [Escape.decode_cons_none (decodedByte_eq_read _ ▸ hb), decodeLoop]
    simp [hb, ih]

theorem decode_of_not_mem {s : Bytes} (h : percent ∉ s) : percentEscape.decode s = s := by
  simpa using Escape.decode_append_of_not_mem (e := percentEscape) (t := []) h

/-- A path is decoded in one pass over its escapes, and repaired when that leaves no
UTF-8. -/
theorem decodeForMatching_path {path : Bytes} (h : question ∉ path) :
    decodeForMatching path =
      if percent ∉ path ∨ Utf8.valid (percentEscape.decode path) then percentEscape.decode path
      else Utf8.lossy (percentEscape.decode path) := by
  rw [decodeForMatching, splitOnce_of_not_mem h]
  by_cases hp : percent ∉ path
  · simp [hp, decode_of_not_mem]
  · simp [hp, decodeLoop_eq]

theorem valid_decodeForMatching (target : Utf8.Str) :
    Utf8.valid (decodeForMatching target.bytes) = true := by
  have hrepair : ∀ decoded, Utf8.valid
      (if Utf8.valid decoded then decoded else Utf8.lossy decoded) = true := by
    intro decoded
    split
    · assumption
    · exact Utf8.valid_lossy _
  simp only [decodeForMatching]
  split <;> split
  all_goals first | exact target.isValid | exact hrepair _

theorem decodePathComponent_eq_some {s out r : Bytes} (h : decodePathComponent s out = some r) :
    r = out ++ percentEscape.decode s := by
  induction s, out using decodePathComponent.induct with
  | case1 out =>
    rw [decodePathComponent, Option.some.injEq] at h
    simp [h]
  | case2 out b rest byte hb href =>
    rw [decodePathComponent] at h
    simp [hb, href] at h
  | case3 out b rest byte hb href ih =>
    rw [decodePathComponent] at h
    simp only [hb, href, if_false] at h
    rw [ih h, Escape.decode_cons_some (decodedByte_eq_read _ ▸ hb)]
    simp
  | case4 out b rest hb ih =>
    rw [decodePathComponent] at h
    simp only [hb] at h
    rw [ih h, Escape.decode_cons_none (decodedByte_eq_read _ ▸ hb)]
    simp

theorem decodePathComponent_of_not_mem {s : Bytes} (h : percent ∉ s) (out : Bytes) :
    decodePathComponent s out = some (out ++ s) := by
  induction s generalizing out with
  | nil => simp [decodePathComponent]
  | cons b s ih =>
    simp only [List.mem_cons, not_or] at h
    have hb : decodedByte (b :: s) = none := by
      rw [decodedByte_eq_read]
      exact Escape.read_cons_of_ne (Ne.symm h.1)
    rw [decodePathComponent]
    simp [hb, ih h.2]

theorem slash_not_mem_decodePathComponent {s out r : Bytes} (hs : slash ∉ s) (hout : slash ∉ out)
    (h : decodePathComponent s out = some r) : slash ∉ r := by
  induction s, out using decodePathComponent.induct with
  | case1 out =>
    rw [decodePathComponent, Option.some.injEq] at h
    exact h ▸ hout
  | case2 out b rest byte hb href =>
    rw [decodePathComponent] at h
    simp [hb, href] at h
  | case3 out b rest byte hb href ih =>
    rw [decodePathComponent] at h
    simp only [hb, href, if_false] at h
    have hdr : slash ∉ rest.drop 2 :=
      fun hmem => hs (List.mem_cons_of_mem _ (List.mem_of_mem_drop hmem))
    exact ih hdr (by simp [hout, Ne.symm (not_or.mp href).1]) h
  | case4 out b rest hb ih =>
    simp only [List.mem_cons, not_or] at hs
    rw [decodePathComponent] at h
    simp only [hb] at h
    exact ih hs.2 (by simp [hout, hs.1]) h

theorem percentEscape_cuts {sep : UInt8} (hhex : hexDigit sep = none) (hne : sep ≠ percent) :
    percentEscape.Cuts sep :=
  ⟨fun _ => hexPair_of_left hhex, fun _ => hexPair_of_right hhex, hne⟩

end Pingclair.Percent
