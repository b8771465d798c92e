import Pingclair.Http.HeaderMap
import Pingclair.Lib.Fallible

/-!
# Response header policy

A policy runs a block of operations, then blocks behind a matcher, the one written last first. In
each block values are set, added, searched and replaced, set where there is none, and removed. At
the end a guard looks at `Content-Length`. An error leaves no response: the half-edited one is given
up.
-/

namespace Pingclair

open ByteText AsciiCase Fallible FieldLines

/-- A value to set, and the same value precompiled when it is a header value. -/
structure SetHeader where
  name : Bytes
  value : Bytes
  headerValue : Option Bytes

structure AddedHeader where
  name : Bytes
  value : Bytes
  headerValue : Option Bytes

structure HeaderReplacement where
  field : Bytes
  replaceAll : Bytes → Bytes

/-- One block of operations. Those kept in a hash map are listed in the order it is walked. -/
structure HeaderOps where
  set : List SetHeader := []
  add : List AddedHeader := []
  remove : List Bytes := []
  defaultSet : List (Bytes × Bytes) := []
  replace : List HeaderReplacement := []
  suppressServer : Bool := false
  suppressVia : Bool := false

structure ResponseMatcher where
  statusCodes : List Nat
  headers : List (Bytes × List Bytes)

structure GatedHeaderOps where
  require : ResponseMatcher
  ops : HeaderOps

structure ResponseHeaderPolicy extends HeaderOps where
  gated : List GatedHeaderOps := []

def ResponseHeaderPolicy.allOps (policy : ResponseHeaderPolicy) : List HeaderOps :=
  policy.toHeaderOps :: policy.gated.map GatedHeaderOps.ops

structure ResponseHeader (http : HttpLib) where
  status : Nat
  headers : http.HeaderMap

inductive Version where
  | http09 | http10 | http11 | http2 | http3

def viaValue : Version → Bytes
  | .http09 => ascii "0.9 Pingclair"
  | .http10 => ascii "1.0 Pingclair"
  | .http11 => ascii "1.1 Pingclair"
  | .http2 => ascii "2.0 Pingclair"
  | .http3 => ascii "3.0 Pingclair"

def contentLength : Bytes := ascii "content-length"

/-- What must happen to a response's `Content-Length` after a block ran. -/
inductive ContentLengthVerdict where
  | keep
  | restore
  | drop

/-- Compares the writer's declaration with what the block left behind. -/
def contentLengthVerdict : (written after : Option Bytes) → ContentLengthVerdict
  | some written, some after => if written = after then .keep else .restore
  | some _, none | none, none => .keep
  | none, some _ => .drop

section

variable (http : HttpLib)

def responseMatcherMatches (matcher : ResponseMatcher) (status : Nat) (headers : http.HeaderMap) :
    Bool :=
  let statusOk := matcher.statusCodes = [] || status ∈ matcher.statusCodes ||
    status / 100 ∈ matcher.statusCodes
  let headersOk := matcher.headers.all fun (name, patterns) =>
    let values := (http.getAll headers name).filterMap http.toStr
    values != [] && patterns.all fun pattern =>
      values.any fun value => pattern = [star] || pattern = value
  statusOk && headersOk

namespace HeaderOps

def setStep (headers : http.HeaderMap) (entry : SetHeader) : Except Unit http.HeaderMap :=
  okOr () (http.insertHeader headers entry.name (entry.headerValue.getD entry.value))

def addStep (headers : http.HeaderMap) (added : AddedHeader) : Except Unit http.HeaderMap :=
  okOr () (http.appendHeader headers added.name (added.headerValue.getD added.value))

def appendRewritten (entry : HeaderReplacement) (headers : http.HeaderMap) (value : Bytes) :
    http.HeaderMap :=
  (http.appendHeader headers entry.field (entry.replaceAll value)).getD headers

def replaceStep (headers : http.HeaderMap) (entry : HeaderReplacement) : http.HeaderMap :=
  let existing := (http.getAll headers entry.field).filterMap http.toStr
  if existing = [] then headers
  else existing.foldl (appendRewritten http entry) (http.remove headers entry.field)

def defaultStep (headers : http.HeaderMap) : Bytes × Bytes → http.HeaderMap
  | (name, value) =>
    if http.get headers name = none then (http.insertHeader headers name value).getD headers
    else headers

/-- The operations of a block, in the order they run. -/
def edit (ops : HeaderOps) (headers : http.HeaderMap) : Except Unit http.HeaderMap := do
  let headers ← ops.set.foldlM (setStep http) headers
  let headers ← ops.add.foldlM (addStep http) headers
  let headers := ops.replace.foldl (replaceStep http) headers
  let headers := ops.defaultSet.foldl (defaultStep http) headers
  return ops.remove.foldl http.remove headers

/-- A block: its operations, then the guard over `Content-Length`. -/
def applyOps (ops : HeaderOps) (headers : http.HeaderMap) : Except Unit http.HeaderMap := do
  let writtenLength := http.get headers contentLength
  let headers ← ops.edit http headers
  match contentLengthVerdict writtenLength (http.get headers contentLength) with
  | .keep => return headers
  | .restore =>
    return (writtenLength.bind (http.insertHeader headers contentLength)).getD headers
  | .drop => return http.remove headers contentLength

end HeaderOps

namespace ResponseHeaderPolicy

def serverStep (headers : http.HeaderMap) (suppressServer : Bool) : Except Unit http.HeaderMap :=
  if suppressServer then .ok (http.remove headers (ascii "server"))
  else if (http.get headers (ascii "server")).isSome then .ok headers
  else okOr () (http.insertHeader headers (ascii "server") (ascii "Pingclair"))

def viaStep (headers : http.HeaderMap) (viaHop : Option Version) (suppressVia : Bool) :
    Except Unit http.HeaderMap :=
  match viaHop.filter fun _ => !suppressVia with
  | some version => okOr () (http.appendHeader headers (ascii "via") (viaValue version))
  | none => .ok headers

def finishPingora (headers : http.HeaderMap) (requestId : Bytes) (viaHop : Option Version)
    (suppressServer suppressVia : Bool) : Except Unit http.HeaderMap := do
  let headers ← serverStep http headers suppressServer
  let headers ← viaStep http headers viaHop suppressVia
  okOr () (http.insertHeader headers (ascii "x-request-id") requestId)

structure Progress (http : HttpLib) where
  headers : http.HeaderMap
  suppressServer : Bool
  suppressVia : Bool

def gatedStep (status : Nat) (progress : Progress http) (block : GatedHeaderOps) :
    Except Unit (Progress http) := do
  if !responseMatcherMatches http block.require status progress.headers then return progress
  return { headers := ← block.ops.applyOps http progress.headers
           suppressServer := progress.suppressServer || block.ops.suppressServer
           suppressVia := progress.suppressVia || block.ops.suppressVia }

def applyPingora (policy : ResponseHeaderPolicy) (response : ResponseHeader http)
    (requestId : Bytes) (viaHop : Option Version) : Except Unit (ResponseHeader http) := do
  let headers ← policy.applyOps http response.headers
  let progress ← policy.gated.reverse.foldlM (gatedStep http response.status)
    ⟨headers, policy.suppressServer, policy.suppressVia⟩
  let headers ← finishPingora http progress.headers requestId viaHop progress.suppressServer
    progress.suppressVia
  return { response with headers }

end ResponseHeaderPolicy

namespace HeaderOps

variable {http} (name : Bytes)

def setLines (lines : List Bytes) (entry : SetHeader) : List Bytes :=
  if eqIgnoreCase name entry.name then [entry.headerValue.getD entry.value] else lines

def addLines (lines : List Bytes) (added : AddedHeader) : List Bytes :=
  if eqIgnoreCase name added.name then lines ++ [added.headerValue.getD added.value] else lines

variable (http) in
/-- Values that are no text are lost, as are rewritten ones that are no header values. -/
def replaceLines (lines : List Bytes) (entry : HeaderReplacement) : List Bytes :=
  let existing := lines.filterMap http.toStr
  if eqIgnoreCase name entry.field ∧ existing ≠ [] then
    (existing.map entry.replaceAll).filter (http.accepts entry.field)
  else lines

variable (http) in
def defaultLines (lines : List Bytes) : Bytes × Bytes → List Bytes
  | (field, value) =>
    if eqIgnoreCase name field ∧ lines = [] ∧ http.accepts field value then [value] else lines

def removeLines (lines : List Bytes) (field : Bytes) : List Bytes :=
  if eqIgnoreCase name field then [] else lines

variable (http) in
/-- The values of a field after the operations of a block, from those before. -/
def fieldAfter (ops : HeaderOps) (lines : List Bytes) : List Bytes :=
  let lines := ops.set.foldl (setLines name) lines
  let lines := ops.add.foldl (addLines name) lines
  let lines := ops.replace.foldl (replaceLines http name) lines
  let lines := ops.defaultSet.foldl (defaultLines http name) lines
  ops.remove.foldl (removeLines name) lines

variable {headers headers' : http.HeaderMap}

theorem getAll_appendRewritten (entry : HeaderReplacement) (vs : List Bytes)
    (headers : http.HeaderMap) :
    http.getAll (vs.foldl (appendRewritten http entry) headers) name =
      if eqIgnoreCase name entry.field then
        http.getAll headers name ++ (vs.map entry.replaceAll).filter (http.accepts entry.field)
      else http.getAll headers name := by
  induction vs generalizing headers with
  | nil => simp
  | cons value vs ih =>
    rw [List.foldl_cons, ih, appendRewritten, HttpLib.appendHeader]
    by_cases hac : http.accepts entry.field (entry.replaceAll value) = true
    · rw [if_pos hac, Option.getD_some, http.getAll_append hac]
      split <;> simp [hac]
    · simp [hac]

theorem getAll_replaceStep (headers : http.HeaderMap) (entry : HeaderReplacement) :
    http.getAll (replaceStep http headers entry) name =
      replaceLines http name (http.getAll headers name) entry := by
  rw [replaceStep, replaceLines]
  by_cases hn : eqIgnoreCase name entry.field = true
  · rw [http.getAll_congr hn headers]
    by_cases hnone : (http.getAll headers entry.field).filterMap http.toStr = []
    · simp [hnone, http.getAll_congr hn headers]
    · simp [hnone, hn, getAll_appendRewritten, http.getAll_remove]
  · simp only [hn, Bool.false_eq_true, false_and, if_false]
    split
    · rfl
    · simp [getAll_appendRewritten, hn, http.getAll_remove]

theorem getAll_defaultStep (headers : http.HeaderMap) (entry : Bytes × Bytes) :
    http.getAll (defaultStep http headers entry) name =
      defaultLines http name (http.getAll headers name) entry := by
  obtain ⟨field, value⟩ := entry
  simp only [defaultStep, defaultLines, HttpLib.get, List.head?_eq_none_iff, HttpLib.insertHeader]
  by_cases hn : eqIgnoreCase name field = true
  · rw [http.getAll_congr hn headers]
    by_cases hnone : http.getAll headers field = []
    · by_cases hac : http.accepts field value = true
      · simp [hnone, hn, hac, http.getAll_insert hac]
      · simp [hnone, hac, http.getAll_congr hn headers]
    · simp [hnone, http.getAll_congr hn headers]
  · simp only [hn, Bool.false_eq_true, false_and, if_false]
    split
    · by_cases hac : http.accepts field value = true
      · simp [hac, http.getAll_insert hac, hn]
      · simp [hac]
    · rfl

variable (ops : HeaderOps) (lines : List Bytes)

def removesLength : Bool := ops.remove.any (eqIgnoreCase contentLength)

def lengthSet : Option Bytes :=
  (ops.set.filter fun entry => eqIgnoreCase contentLength entry.name).getLast?.map fun entry =>
    entry.headerValue.getD entry.value

def lengthAdded : List Bytes :=
  (ops.add.filter fun added => eqIgnoreCase contentLength added.name).map fun added =>
    added.headerValue.getD added.value

def lengthRewrites : List HeaderReplacement :=
  ops.replace.filter fun entry => eqIgnoreCase contentLength entry.field

/-- The values that the block sets or finds, and those it adds. -/
def lengthsWritten : List Bytes := ops.lengthSet.elim lines ([·]) ++ ops.lengthAdded

theorem foldl_setLines (entries : List SetHeader) :
    entries.foldl (setLines contentLength) lines =
      ((entries.filter fun entry => eqIgnoreCase contentLength entry.name).getLast?.map fun entry =>
        entry.headerValue.getD entry.value).elim lines ([·]) := by
  induction entries using List.reverseRecOn with
  | nil => rfl
  | append_singleton entries entry ih =>
    rw [List.foldl_concat, ih, setLines, List.filter_append]
    by_cases h : eqIgnoreCase contentLength entry.name = true <;> simp [h]

theorem foldl_addLines (entries : List AddedHeader) :
    entries.foldl (addLines contentLength) lines =
      lines ++ (entries.filter fun added => eqIgnoreCase contentLength added.name).map
        fun added => added.headerValue.getD added.value := by
  induction entries generalizing lines with
  | nil => simp
  | cons entry entries ih =>
    rw [List.foldl_cons, ih, addLines]
    by_cases h : eqIgnoreCase contentLength entry.name = true <;> simp [h]

theorem foldl_replaceLines (entries : List HeaderReplacement) :
    entries.foldl (replaceLines http contentLength) lines =
      (entries.filter fun entry => eqIgnoreCase contentLength entry.field).foldl
        (replaceLines http contentLength) lines := by
  rw [List.foldl_filter]
  congr 1
  funext lines entry
  by_cases h : eqIgnoreCase contentLength entry.field = true <;> simp [h, replaceLines]

theorem foldl_defaultLines (entries : List (Bytes × Bytes)) :
    entries.foldl (defaultLines http contentLength) lines = lines ∨
      lines = [] ∧ ∃ value, entries.foldl (defaultLines http contentLength) lines = [value] := by
  induction entries generalizing lines with
  | nil => exact .inl rfl
  | cons entry entries ih =>
    rw [List.foldl_cons]
    obtain ⟨field, value⟩ := entry
    by_cases h : eqIgnoreCase contentLength field ∧ lines = [] ∧ http.accepts field value
    · rw [defaultLines, if_pos h]
      rcases ih [value] with hsame | ⟨hnil, -⟩
      · exact .inr ⟨h.2.1, value, hsame⟩
      · cases hnil
    · rw [defaultLines, if_neg h]
      exact ih lines

theorem foldl_removeLines (fields : List Bytes) :
    fields.foldl (removeLines contentLength) lines =
      if fields.any (eqIgnoreCase contentLength) then [] else lines := by
  induction fields generalizing lines with
  | nil => rfl
  | cons field fields ih =>
    rw [List.foldl_cons, ih, removeLines]
    by_cases h : eqIgnoreCase contentLength field = true <;> simp [h]

/-- What a block leaves of `Content-Length`, in front of the guard. -/
theorem fieldAfter_length :
    ops.fieldAfter http contentLength lines =
      if ops.removesLength then []
      else ops.defaultSet.foldl (defaultLines http contentLength)
        (ops.lengthRewrites.foldl (replaceLines http contentLength)
          (ops.lengthsWritten lines)) := by
  rw [fieldAfter, foldl_removeLines, foldl_replaceLines, foldl_addLines, foldl_setLines]
  rfl

/-- All values of a field are one. -/
def Uniform (lines : List Bytes) : Prop := ∀ u ∈ lines, ∀ v ∈ lines, u = v

variable {ops lines} (h : Uniform lines)

include h

theorem Uniform.replaceLines (entry : HeaderReplacement) :
    Uniform (replaceLines http contentLength lines entry) := by
  rw [HeaderOps.replaceLines]
  split
  · intro u hu v hv
    simp only [List.mem_filter, List.mem_map, List.mem_filterMap] at hu hv
    obtain ⟨⟨text, ⟨line, hline, htext⟩, rfl⟩, -⟩ := hu
    obtain ⟨⟨text', ⟨line', hline', htext'⟩, rfl⟩, -⟩ := hv
    rw [(http.toStr_eq htext).1, (http.toStr_eq htext').1, h line hline line' hline']
  · exact h

/-- Operations that add no length, or remove it, leave one value of it at most. -/
theorem Uniform.fieldAfter (hops : ops.removesLength = true ∨ ops.lengthAdded = []) :
    Uniform (ops.fieldAfter http contentLength lines) := by
  rw [fieldAfter_length]
  split
  · simp [Uniform]
  · next hremoves =>
    have hwritten : Uniform (ops.lengthsWritten lines) := by
      rw [lengthsWritten, hops.resolve_left hremoves, List.append_nil]
      cases ops.lengthSet with
      | none => exact h
      | some value => simp [Uniform]
    have hleft := List.foldlRecOn (motive := Uniform) ops.lengthRewrites
      (HeaderOps.replaceLines http contentLength) hwritten fun _ h entry _ => h.replaceLines entry
    rcases @foldl_defaultLines http _ ops.defaultSet with hsame | ⟨-, value, hvalue⟩
    · rwa [hsame]
    · simp [hvalue, Uniform]

end HeaderOps

/-! ### Every block in turn -/

variable {http}

namespace ResponseHeaderPolicy

variable (http) in
def appliedBlocks (status : Nat) (headers : http.HeaderMap) :
    List GatedHeaderOps → List (HeaderOps × http.HeaderMap)
  | [] => []
  | block :: rest =>
    if responseMatcherMatches http block.require status headers then
      (block.ops, headers) ::
        match block.ops.applyOps http headers with
        | .ok after => appliedBlocks status after rest
        | .error _ => []
    else appliedBlocks status headers rest

variable (http) in
/-- All blocks that apply, in order, each with the headers it finds. -/
def blocks (policy : ResponseHeaderPolicy) (response : ResponseHeader http) :
    List (HeaderOps × http.HeaderMap) :=
  (policy.toHeaderOps, response.headers) ::
    match policy.applyOps http response.headers with
    | .ok after => appliedBlocks http response.status after policy.gated.reverse
    | .error _ => []

variable {gated : List GatedHeaderOps}

end ResponseHeaderPolicy

end

end Pingclair
