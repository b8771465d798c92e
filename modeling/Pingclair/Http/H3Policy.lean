import Pingclair.Http.ResponsePolicy
import Pingclair.Lib.Numerals
import Pingclair.Lib.Utf8

/-!
# Header policy over HTTP/3

HTTP/3 keeps the fields of a response in a flat list, with the status among them. A block runs the
operations in the same order, but a search and replace reads every value that is UTF-8, where the
header maps of the other transports read visible ASCII only.
-/

namespace Pingclair

open ByteText AsciiCase Fallible Numerals List

structure H3Header where
  name : Bytes
  value : Bytes
  deriving DecidableEq

def H3Header.named (header : H3Header) (name : Bytes) : Bool := eqIgnoreCase header.name name

def h3Values (headers : List H3Header) (name : Bytes) : List Bytes :=
  (headers.filter (·.named name)).map H3Header.value

def removeH3Header (headers : List H3Header) (name : Bytes) : List H3Header :=
  headers.filter fun header => !header.named name

def setH3Header (headers : List H3Header) (name value : Bytes) : List H3Header :=
  let normalized := if name.any isUpper then fold name else name
  removeH3Header headers normalized ++ [⟨normalized, value⟩]

def responseStatus (headers : List H3Header) : Nat :=
  let status := headers.find? fun header => header.name == ascii ":status"
  (status.bind fun header =>
    if Utf8.valid header.value then parseUnsigned 65535 header.value else none).getD 200

namespace HeaderOps

def h3SetStep (headers : List H3Header) (entry : SetHeader) : List H3Header :=
  setH3Header headers entry.name entry.value

def h3AddStep (headers : List H3Header) (added : AddedHeader) : List H3Header :=
  headers ++ [⟨added.name, added.value⟩]

def h3ReplaceStep (headers : List H3Header) (entry : HeaderReplacement) : List H3Header :=
  let rewritten := ((h3Values headers entry.field).filter Utf8.valid).map entry.replaceAll
  removeH3Header headers entry.field ++ rewritten.map (H3Header.mk entry.field)

def h3DefaultStep (headers : List H3Header) : Bytes × Bytes → List H3Header
  | (name, value) =>
    if headers.any (·.named name) then headers else headers ++ [⟨name, value⟩]

def h3Edit (ops : HeaderOps) (headers : List H3Header) : List H3Header :=
  let headers := ops.set.foldl h3SetStep headers
  let headers := ops.add.foldl h3AddStep headers
  let headers := ops.replace.foldl h3ReplaceStep headers
  let headers := ops.defaultSet.foldl h3DefaultStep headers
  ops.remove.foldl removeH3Header headers

def h3Length (headers : List H3Header) : Option Bytes :=
  (headers.find? (·.named contentLength)).map H3Header.value

def applyH3Ops (ops : HeaderOps) (headers : List H3Header) : List H3Header :=
  let writtenLength := h3Length headers
  let headers := ops.h3Edit headers
  match contentLengthVerdict writtenLength (h3Length headers) with
  | .keep => headers
  | .restore =>
    match writtenLength with
    | some written => setH3Header headers contentLength (Utf8.lossy written)
    | none => headers
  | .drop => removeH3Header headers contentLength

end HeaderOps

namespace ResponseHeaderPolicy

def gateHeaderView (http : HttpMaps) (headers : List H3Header) (matcher : ResponseMatcher) :
    http.HeaderMap :=
  matcher.headers.foldl (fun view key =>
    (headers.filter (·.named key.1)).foldl (fun view header =>
      (http.appendHeader view key.1 header.value).getD view) view) http.empty

structure H3Progress where
  headers : List H3Header
  suppressServer : Bool

def h3GatedStep (http : HttpMaps) (progress : H3Progress) (block : GatedHeaderOps) : H3Progress :=
  if responseMatcherMatches http.toHttpLib block.require (responseStatus progress.headers)
      (gateHeaderView http progress.headers block.require) then
    { headers := block.ops.applyH3Ops progress.headers
      suppressServer := progress.suppressServer || block.ops.suppressServer }
  else progress

def applyH3Blocks (http : HttpMaps) (policy : ResponseHeaderPolicy) (headers : List H3Header) :
    H3Progress :=
  policy.gated.reverse.foldl (h3GatedStep http) ⟨policy.applyH3Ops headers, policy.suppressServer⟩

def applyBlocks (http : HttpLib) (policy : ResponseHeaderPolicy) (response : ResponseHeader http) :
    Except Unit (Progress http) := do
  let headers ← policy.applyOps http response.headers
  policy.gated.reverse.foldlM (gatedStep http response.status)
    ⟨headers, policy.suppressServer, policy.suppressVia⟩

end ResponseHeaderPolicy

def isFieldName (name : Bytes) : Bool := fold name ≠ [] && (fold name).all isNameByte

def isFieldValue (value : Bytes) : Bool := value.all isValueByte

def isPlain (value : Bytes) : Bool := value.all fun b => b == 0x09 || 0x20 ≤ b && b < 0x7F

/-- Header maps that go by the bytes a name, a value and a visible value may have. -/
structure HttpText extends HttpMaps where
  accepts_eq : ∀ name value, accepts name value = (isFieldName name && isFieldValue value)
  toStr_eq_ite : ∀ value, toStr value = if isPlain value then some value else none

def FieldLines.text : HttpText where
  toHttpMaps := FieldLines.maps
  accepts_eq _ _ := rfl
  toStr_eq_ite _ := rfl

theorem lt_of_isPlain {value : Bytes} (h : isPlain value = true) : ∀ b ∈ value, b < 0x80 := by
  intro b hb
  have := all_eq_true.mp h b hb
  grind

theorem valid_of_isPlain {value : Bytes} (h : isPlain value = true) : Utf8.valid value = true :=
  Utf8.valid_of_ascii (lt_of_isPlain h)

theorem filterMap_toStr (lib : HttpText) (lines : List Bytes) :
    lines.filterMap lib.toStr = lines.filter isPlain := by
  rw [← filterMap_eq_filter]
  congr 1
  funext value
  rw [lib.toStr_eq_ite]
  simp [Option.guard]

/-- No field has the name of a pseudo-header. -/
theorem not_named_status {name : Bytes} (h : isFieldName name = true) :
    eqIgnoreCase (ascii ":status") name = false := by
  rw [eqIgnoreCase, beq_eq_false_iff_ne]
  intro hn
  rw [isFieldName, ← hn] at h
  exact absurd h (by decide)

section

variable (headers : List H3Header) (name : Bytes)

theorem named_eq (header : H3Header) : header.named name = (fold header.name == fold name) := rfl

theorem h3Values_append (more : List H3Header) :
    h3Values (headers ++ more) name = h3Values headers name ++ h3Values more name := by
  rw [h3Values, filter_append, map_append, h3Values, h3Values]

theorem h3Values_map_mk (field : Bytes) (vs : List Bytes) :
    h3Values (vs.map (H3Header.mk field)) name =
      if eqIgnoreCase name field then vs else [] := by
  rw [h3Values, filter_map, eqIgnoreCase]
  by_cases h : fold name = fold field
  · simp [Function.comp_def, named_eq, h]
  · simp [Function.comp_def, named_eq, h, Ne.symm h]

theorem h3Values_singleton (field value : Bytes) :
    h3Values [⟨field, value⟩] name = if eqIgnoreCase name field then [value] else [] :=
  h3Values_map_mk name field [value]

theorem h3Values_congr {name other : Bytes} (h : eqIgnoreCase name other = true) :
    h3Values headers name = h3Values headers other := by
  rw [h3Values]
  congr 1
  apply filter_congr
  intro header _
  rw [named_eq, named_eq, eq_of_beq h]

theorem h3Values_removeH3Header (field : Bytes) :
    h3Values (removeH3Header headers field) name =
      HeaderOps.removeLines name (h3Values headers name) field := by
  rw [h3Values, removeH3Header, filter_filter, HeaderOps.removeLines]
  by_cases h : fold name = fold field
  · simp [named_eq, h]
  · rw [if_neg (by simpa using h)]
    congr 1
    apply filter_congr
    intro header _
    by_cases hhd : fold header.name = fold name
    · simp [named_eq, hhd, h]
    · simp [named_eq, hhd]

theorem h3Values_setH3Header (field value : Bytes) :
    h3Values (setH3Header headers field value) name =
      if eqIgnoreCase name field then [value] else h3Values headers name := by
  have hnorm : fold (if field.any isUpper then fold field else field) = fold field := by
    split
    · exact fold_of_no_upper (by simp [fold, isUpper_lower])
    · rfl
  rw [setH3Header, h3Values_append, h3Values_removeH3Header, h3Values_singleton,
    HeaderOps.removeLines, eqIgnoreCase, hnorm, ← eqIgnoreCase]
  split <;> simp

theorem any_named : headers.any (·.named name) = (h3Values headers name != []) := by
  rw [Bool.eq_iff_iff]
  simp [h3Values]

theorem find_named :
    (headers.find? (·.named name)).map H3Header.value = (h3Values headers name).head? := by
  rw [h3Values, List.head?_map, ← List.head?_filter]

end

end Pingclair
