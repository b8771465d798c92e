import Pingclair.Http.H3Policy

/-!
# Request framing

A request whose length or host can be read in two ways is refused. Over HTTP/1 and HTTP/2 the
check asks the header map of the request; over HTTP/3 it goes through the list of fields before
there is a map, and counts.
-/

namespace Pingclair

open ByteText AsciiCase Fallible List

inductive FramingRejection
  | ambiguousLength
  | transferEncodingForbidden
  | malformedContentLength
  | repeatedContentLength
  | missingHost
  | ambiguousHost
  | malformedHost
  deriving DecidableEq

inductive HttpVersion
  | http09
  | http10
  | http11
  | http2
  | http3
  deriving DecidableEq

abbrev transferEncoding : Bytes := ascii "transfer-encoding"
abbrev hostField : Bytes := ascii "host"

def contentLengthValueInvalid (raw : Bytes) : Bool :=
  raw.isEmpty || !raw.all fun b => 0x30 ≤ b && b ≤ 0x39

def countLength (lengths : Nat) (value : Bytes) : Except FramingRejection Nat :=
  if contentLengthValueInvalid value then .error .malformedContentLength else .ok (lengths + 1)

def checkRequestFraming (http : HttpLib) (version : HttpVersion) (headers : http.HeaderMap) :
    Except FramingRejection Unit :=
  let hasTransferEncoding := http.getAll headers transferEncoding ≠ []
  let hasContentLength := http.getAll headers contentLength ≠ []
  if hasTransferEncoding ∧ (version = .http2 ∨ version = .http3) then
    .error .transferEncodingForbidden
  else if hasTransferEncoding ∧ hasContentLength then .error .ambiguousLength
  else do
    let lengths ← (http.getAll headers contentLength).foldlM countLength 0
    if lengths > 1 then .error .repeatedContentLength else .ok ()

structure FieldCounts where
  lengths : Nat
  hosts : Nat

def countField (counts : FieldCounts) (line : FieldLine) : Except FramingRejection FieldCounts :=
  if line.name = transferEncoding then .error .transferEncodingForbidden
  else if line.name = contentLength then do
    let lengths ← countLength counts.lengths line.value
    .ok { counts with lengths }
  else if line.name = hostField then .ok { counts with hosts := counts.hosts + 1 }
  else .ok counts

def checkH3RequestFraming (lines : List FieldLine) : Except FramingRejection Unit := do
  let counts ← lines.foldlM countField ⟨0, 0⟩
  if counts.lengths > 1 then .error .repeatedContentLength
  else if counts.hosts > 1 then .error .ambiguousHost
  else .ok ()

def fieldMap (http : HttpMaps) (lines : List FieldLine) : http.HeaderMap :=
  lines.foldl (fun headers line => http.append headers line.name line.value) http.empty

def valuesOf (lines : List FieldLine) (name : Bytes) : List Bytes :=
  (lines.filter (·.name = name)).map FieldLine.value

theorem valuesOf_cons (line : FieldLine) (lines : List FieldLine) (name : Bytes) :
    valuesOf (line :: lines) name =
      if line.name = name then line.value :: valuesOf lines name else valuesOf lines name := by
  split <;> simp_all [valuesOf]

theorem getAll_fieldMap (http : HttpText) {name : Bytes} (hn : fold name = name)
    (lines : List FieldLine) :
    http.getAll (fieldMap http.toHttpMaps lines) name = valuesOf lines name := by
  induction lines using List.reverseRecOn with
  | nil => exact http.getAll_empty name
  | append_singleton lines line ih =>
    obtain ⟨hne, hbs, hv⟩ := line.wellFormed
    have hac : http.accepts line.name line.value = true := by
      rw [http.accepts_eq, isFieldName, isFieldValue, fold_name, hbs, hv]
      simp [hne]
    rw [fieldMap, foldl_concat, http.getAll_append hac, ← fieldMap, ih, eqIgnoreCase,
      fold_name, hn, valuesOf, valuesOf, filter_append]
    by_cases h : name = line.name
    · simp [h]
    · simp [h, Ne.symm h]

theorem countLength_eq_ok {lengths total : Nat} {value : Bytes} :
    countLength lengths value = .ok total ↔
      contentLengthValueInvalid value = false ∧ lengths + 1 = total := by
  rw [countLength]
  split <;> simp_all

theorem foldlM_countLength {vs : List Bytes} {lengths total : Nat} :
    vs.foldlM countLength lengths = .ok total ↔
      (∀ value ∈ vs, contentLengthValueInvalid value = false) ∧ lengths + vs.length = total := by
  induction vs generalizing lengths with
  | nil => simp [pure, Except.pure]
  | cons value vs ih =>
    simp only [foldlM_cons, bind_eq_ok, countLength_eq_ok, ih, forall_mem_cons, length_cons]
    constructor
    · rintro ⟨_, ⟨hv, rfl⟩, hvs, rfl⟩
      exact ⟨⟨hv, hvs⟩, by omega⟩
    · rintro ⟨⟨hv, hvs⟩, rfl⟩
      exact ⟨_, ⟨hv, rfl⟩, hvs, by omega⟩

theorem foldlM_countField {lines : List FieldLine} {counts total : FieldCounts} :
    lines.foldlM countField counts = .ok total ↔
      valuesOf lines transferEncoding = [] ∧
        (∀ value ∈ valuesOf lines contentLength, contentLengthValueInvalid value = false) ∧
        ⟨counts.lengths + (valuesOf lines contentLength).length,
          counts.hosts + (valuesOf lines hostField).length⟩ = total := by
  induction lines generalizing counts with
  | nil => simp [valuesOf, pure, Except.pure]
  | cons line lines ih =>
    rw [foldlM_cons, bind_eq_ok, countField]
    simp only [ih, valuesOf_cons]
    by_cases henc : line.name = transferEncoding
    · simp [henc]
    by_cases hlen : line.name = contentLength
    · have hh : line.name ≠ hostField := hlen ▸ by decide
      simp only [if_neg henc, if_pos hlen, if_neg hh, bind_eq_ok, countLength_eq_ok,
        forall_mem_cons, length_cons]
      constructor
      · rintro ⟨_, ⟨_, ⟨hv, rfl⟩, ⟨⟩⟩, hls, hvs, rfl⟩
        exact ⟨hls, ⟨hv, hvs⟩, by rw [Nat.add_right_comm, Nat.add_assoc]⟩
      · rintro ⟨hls, ⟨hv, hvs⟩, rfl⟩
        exact ⟨_, ⟨_, ⟨hv, rfl⟩, rfl⟩, hls, hvs, by rw [Nat.add_right_comm, Nat.add_assoc]⟩
    · by_cases hh : line.name = hostField
      · simp [if_neg henc, if_neg hlen, if_pos hh, Nat.add_assoc, Nat.add_comm 1]
      · simp [if_neg henc, if_neg hlen, if_neg hh]

/-- The check over HTTP/3 accepts a list of fields exactly when the check of the other transports
accepts the map that they fill, as an HTTP/3 request, and there is at most one `Host` field. -/
theorem checkH3RequestFraming_eq_ok_iff (http : HttpText) (lines : List FieldLine) :
    checkH3RequestFraming lines = .ok () ↔
      checkRequestFraming http.toHttpLib .http3 (fieldMap http.toHttpMaps lines) = .ok () ∧
        (lines.filter (·.name = hostField)).length ≤ 1 := by
  have henc := @getAll_fieldMap http transferEncoding (by decide) lines
  have hlen := @getAll_fieldMap http contentLength (by decide) lines
  have hhosts : (valuesOf lines hostField).length = (lines.filter (·.name = hostField)).length :=
    length_map _
  rw [checkH3RequestFraming, bind_eq_ok, checkRequestFraming, henc, hlen]
  simp only [foldlM_countField]
  constructor
  · rintro ⟨_, ⟨hno, hvs, rfl⟩, hcts⟩
    simp only [Nat.zero_add, hhosts] at hcts
    split_ifs at hcts with hlengths hmy
    rw [if_neg (fun h => h.1 hno), if_neg (fun h => h.1 hno), bind_eq_ok]
    exact ⟨⟨_, foldlM_countLength.mpr ⟨hvs, rfl⟩, if_neg (by omega)⟩, by omega⟩
  · rintro ⟨hcheck, hmy⟩
    have hno : valuesOf lines transferEncoding = [] := by
      by_contra hne
      rw [if_pos ⟨hne, .inr trivial⟩] at hcheck
      cases hcheck
    rw [if_neg (fun h => h.1 hno), if_neg (fun h => h.1 hno), bind_eq_ok] at hcheck
    obtain ⟨_, hfo, hlengths⟩ := hcheck
    obtain ⟨hvs, rfl⟩ := foldlM_countLength.mp hfo
    split_ifs at hlengths with hrepeated
    refine ⟨_, ⟨hno, hvs, rfl⟩, ?_⟩
    simp only [Nat.zero_add, hhosts]
    rw [if_neg (by omega), if_neg (by omega)]

end Pingclair
