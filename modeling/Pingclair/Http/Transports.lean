import Pingclair.Http.H3Policy

/-!
# One policy, two transports

What a header policy leaves of a response over HTTP/3 and over the other transports, when all of
the policy is header text. Each operation has the same effect on both, until a replacement meets a
value that is not visible ASCII or a length is restored that is no text.
-/

namespace Pingclair

open ByteText AsciiCase Fallible Numerals List HeaderOps Utf8

/-- One operation of a block. The last is the guard, with the length that the block found. -/
inductive HeaderOp where
  | set (entry : SetHeader)
  | add (added : AddedHeader)
  | replace (entry : HeaderReplacement)
  | defaultSet (entry : Bytes × Bytes)
  | remove (field : Bytes)
  | guard (written : Option Bytes)

def HeaderOps.program (ops : HeaderOps) (written : Option Bytes) : List HeaderOp :=
  ops.set.map .set ++ ops.add.map .add ++ ops.replace.map .replace ++
    ops.defaultSet.map .defaultSet ++ ops.remove.map .remove ++ [.guard written]

namespace HeaderOp

def run (http : HttpLib) (headers : http.HeaderMap) : HeaderOp → Except Unit http.HeaderMap
  | set entry => setStep http headers entry
  | add added => addStep http headers added
  | replace entry => .ok (replaceStep http headers entry)
  | defaultSet entry => .ok (defaultStep http headers entry)
  | remove field => .ok (http.remove headers field)
  | guard written =>
    match contentLengthVerdict written (http.get headers contentLength) with
    | .keep => .ok headers
    | .restore => .ok ((written.bind (http.insertHeader headers contentLength)).getD headers)
    | .drop => .ok (http.remove headers contentLength)

def h3Run (headers : List H3Header) : HeaderOp → List H3Header
  | set entry => h3SetStep headers entry
  | add added => h3AddStep headers added
  | replace entry => h3ReplaceStep headers entry
  | defaultSet entry => h3DefaultStep headers entry
  | remove field => removeH3Header headers field
  | guard written =>
    match contentLengthVerdict written (h3Length headers) with
    | .keep => headers
    | .restore =>
      match written with
      | some written => setH3Header headers contentLength (lossy written)
      | none => headers
    | .drop => removeH3Header headers contentLength

/-- The names, the values and what replacements make of text are header text. -/
def Valid : HeaderOp → Prop
  | set entry => isFieldName entry.name ∧ isFieldValue entry.value ∧
      entry.headerValue.getD entry.value = entry.value
  | add added => isFieldName added.name ∧ isFieldValue added.value ∧
      added.headerValue.getD added.value = added.value
  | replace entry => isFieldName entry.field ∧
      ∀ text, Utf8.valid text → isFieldValue (entry.replaceAll text)
  | defaultSet entry => isFieldName entry.1 ∧ isFieldValue entry.2
  | remove field => isFieldName field
  | guard written => ∀ w ∈ written, isFieldValue w

end HeaderOp

theorem applyOps_eq (http : HttpLib) (ops : HeaderOps) (headers : http.HeaderMap) :
    ops.applyOps http headers =
      (ops.program (http.get headers contentLength)).foldlM (HeaderOp.run http) headers := by
  have hpure {α : Type} (f : http.HeaderMap → α → http.HeaderMap) (l : List α)
      (headers : http.HeaderMap) :
      l.foldlM (fun headers a => Except.ok (f headers a)) headers =
        (.ok (l.foldl f headers) : Except Unit http.HeaderMap) := foldlM_pure
  simp only [HeaderOps.applyOps, HeaderOps.edit, HeaderOps.program, foldlM_append, foldlM_map,
    HeaderOp.run, hpure, foldlM_cons, foldlM_nil, bind_assoc, pure_bind, bind_pure]
  rfl

theorem applyH3Ops_eq (ops : HeaderOps) (headers : List H3Header) :
    ops.applyH3Ops headers = (ops.program (h3Length headers)).foldl HeaderOp.h3Run headers := by
  simp only [HeaderOps.program, foldl_append, foldl_map, foldl_cons, foldl_nil]
  rfl

/-! ### What stays of the status -/

def FieldsOnly (headers : List H3Header) : Prop := ∀ header ∈ headers, isFieldName header.name

theorem responseStatus_append {headers more : List H3Header} (h : FieldsOnly more) :
    responseStatus (headers ++ more) = responseStatus headers := by
  have hmo : more.find? (fun header => header.name == ascii ":status") = none := by
    rw [List.find?_eq_none]
    intro header hhd hn
    have hnt := not_named_status (h header hhd)
    rw [eq_of_beq hn, eqIgnoreCase] at hnt
    exact Bool.noConfusion hnt
  rw [responseStatus, List.find?_append, hmo, Option.or_none, responseStatus]

variable {field : Bytes}

theorem responseStatus_removeH3Header {headers : List H3Header} (h : isFieldName field = true) :
    responseStatus (removeH3Header headers field) = responseStatus headers := by
  rw [responseStatus, removeH3Header, List.find?_filter]
  congr 2
  congr 1
  funext header
  by_cases hn : header.name = ascii ":status"
  · simp [hn, H3Header.named, not_named_status h]
  · simp [hn]

theorem isFieldName_normalized (h : isFieldName field = true) :
    isFieldName (if field.any isUpper then fold field else field) = true := by
  split
  · rw [isFieldName, fold_of_no_upper (s := fold field) (by simp [fold, isUpper_lower])]
    exact h
  · exact h

theorem responseStatus_setH3Header {headers : List H3Header} {value : Bytes}
    (h : isFieldName field = true) :
    responseStatus (setH3Header headers field value) = responseStatus headers := by
  have hnorm := isFieldName_normalized h
  rw [setH3Header, responseStatus_append (by simpa [FieldsOnly] using hnorm),
    responseStatus_removeH3Header hnorm]

theorem responseStatus_h3Run {op : HeaderOp} (hvalid : op.Valid) (headers : List H3Header) :
    responseStatus (op.h3Run headers) = responseStatus headers := by
  cases op with
  | set entry => exact responseStatus_setH3Header hvalid.1
  | add added => exact responseStatus_append (by simpa [FieldsOnly] using hvalid.1)
  | replace entry =>
    refine (responseStatus_append fun header hhd => ?_).trans
      (responseStatus_removeH3Header hvalid.1)
    obtain ⟨value, -, rfl⟩ := mem_map.mp hhd
    exact hvalid.1
  | defaultSet entry =>
    rw [HeaderOp.h3Run, h3DefaultStep]
    split
    · rfl
    · exact responseStatus_append (by simpa [FieldsOnly] using hvalid.1)
  | remove field => exact responseStatus_removeH3Header hvalid
  | guard written =>
    have hlen : isFieldName contentLength = true := by decide
    rw [HeaderOp.h3Run.eq_def]
    dsimp only
    split
    · rfl
    · split
      · exact responseStatus_setH3Header hlen
      · rfl
    · exact responseStatus_removeH3Header hlen

namespace ResponseHeaderPolicy

variable {lib : HttpText}

/-- A header map and a list of HTTP/3 have the same values of every field. -/
def SameFields (fields : lib.HeaderMap) (headers : List H3Header) : Prop :=
  ∀ name, isFieldName name → h3Values headers name = lib.getAll fields name

structure Mirrors (status : Nat) (fields : lib.HeaderMap) (headers : List H3Header) : Prop where
  status_eq : responseStatus headers = status
  values_eq : SameFields fields headers

variable {name value : Bytes}

theorem isFieldName_of_mem {fields : lib.HeaderMap} (h : value ∈ lib.getAll fields name) :
    isFieldName name = true ∧ isFieldValue value = true := by
  have hac := lib.accepts_of_mem h
  rwa [lib.accepts_eq, Bool.and_eq_true] at hac

theorem mem_getAll_appendAll {o : Bytes} (vs : List H3Header) (view : lib.HeaderMap) :
    value ∈ lib.getAll (vs.foldl (fun view header =>
        (lib.appendHeader view name header.value).getD view) view) o ↔
      value ∈ lib.getAll view o ∨ eqIgnoreCase o name ∧ lib.accepts name value ∧
        value ∈ vs.map H3Header.value := by
  induction vs generalizing view with
  | nil => simp
  | cons header vs ih =>
    rw [foldl_cons, ih, HttpLib.appendHeader]
    by_cases hac : lib.accepts name header.value = true
    · rw [if_pos hac, Option.getD_some, lib.getAll_append hac]
      by_cases hn : eqIgnoreCase o name = true
      · grind
      · simp [hn]
    · grind

theorem accepts_congr {o : Bytes} (h : eqIgnoreCase name o = true) :
    lib.accepts name value = lib.accepts o value := by
  rw [lib.accepts_eq, lib.accepts_eq, isFieldName, isFieldName, eq_of_beq h]

/-- The view has the values of the fields that the matcher asks for. -/
theorem mem_gateHeaderView {headers : List H3Header} {m : ResponseMatcher} :
    value ∈ lib.getAll (gateHeaderView lib.toHttpMaps headers m) name ↔
      (∃ key ∈ m.headers, eqIgnoreCase name key.1) ∧ lib.accepts name value ∧
        value ∈ h3Values headers name := by
  have hfo : ∀ (keys : List (Bytes × List Bytes)) (v : lib.HeaderMap),
      value ∈ lib.getAll (keys.foldl (fun v key =>
        (headers.filter (·.named key.1)).foldl (fun v header =>
          (lib.appendHeader v key.1 header.value).getD v) v) v) name ↔
        value ∈ lib.getAll v name ∨ (∃ key ∈ keys, eqIgnoreCase name key.1) ∧
          lib.accepts name value ∧ value ∈ h3Values headers name := by
    intro keys
    induction keys with
    | nil => simp
    | cons key keys ih =>
      intro v
      rw [foldl_cons, ih, mem_getAll_appendAll, ← h3Values]
      by_cases hn : eqIgnoreCase name key.1 = true
      · rw [← accepts_congr hn, ← h3Values_congr headers hn]
        grind
      · grind
  rw [gateHeaderView, hfo, lib.getAll_empty]
  simp

/-- A gate sees a response the same way on both transports. -/
theorem responseMatcherMatches_view {status : Nat} {fields : lib.HeaderMap}
    {headers : List H3Header} (h : Mirrors status fields headers) (m : ResponseMatcher) :
    responseMatcherMatches lib.toHttpLib m (responseStatus headers)
        (gateHeaderView lib.toHttpMaps headers m) =
      responseMatcherMatches lib.toHttpLib m status fields := by
  have hmem : ∀ key ∈ m.headers, ∀ value,
      value ∈ lib.getAll (gateHeaderView lib.toHttpMaps headers m) key.1 ↔
        value ∈ lib.getAll fields key.1 := by
    intro key hk value
    rw [mem_gateHeaderView]
    refine ⟨fun ⟨_, hac, hv⟩ => ?_, fun hv => ?_⟩
    · rw [lib.accepts_eq, Bool.and_eq_true] at hac
      rwa [← h.values_eq key.1 hac.1]
    · refine ⟨⟨key, hk, by simp [eqIgnoreCase]⟩, lib.accepts_of_mem hv, ?_⟩
      rwa [h.values_eq key.1 (isFieldName_of_mem hv).1]
  have hvs : ∀ key ∈ m.headers, ∀ value,
      value ∈ (lib.getAll (gateHeaderView lib.toHttpMaps headers m) key.1).filterMap lib.toStr ↔
        value ∈ (lib.getAll fields key.1).filterMap lib.toStr := by
    intro key hk value
    simp only [mem_filterMap, hmem key hk]
  rw [responseMatcherMatches, h.status_eq]
  congr 1
  rw [Bool.eq_iff_iff, all_eq_true, all_eq_true]
  refine forall₂_congr fun key hk => ?_
  simp only [Bool.and_eq_true, bne_iff_ne, ne_eq, eq_nil_iff_forall_not_mem,
    all_eq_true, any_eq_true, hvs key hk]

/-! ### One operation -/

/-- What a replacement must find in a field for both transports to leave the same: besides
visible ASCII no text, or only text that it does not change. -/
def RewritesAlike (entry : HeaderReplacement) (lines : List Bytes) : Prop :=
  if lines.filter isPlain = [] then ∀ v ∈ lines, Utf8.valid v ∧ entry.replaceAll v = v
  else ∀ v ∈ lines, Utf8.valid v → isPlain v

theorem map_filter_valid_eq_self_iff (f : Bytes → Bytes) (lines : List Bytes) :
    (lines.filter valid).map f = lines ↔ ∀ v ∈ lines, valid v ∧ f v = v := by
  refine ⟨fun h => ?_, fun h => ?_⟩
  · have ha : ∀ v ∈ lines, valid v = true := by
      simpa using congrArg List.length h
    rw [filter_eq_self.mpr ha] at h
    have hfix := map_inj_left.mp (h.trans (map_id lines).symm)
    exact fun v hv => ⟨ha v hv, hfix v hv⟩
  · rw [filter_eq_self.mpr fun v hv => (h v hv).1]
    exact (map_congr_left fun v hv => (h v hv).2).trans (map_id lines)

theorem map_filter_valid_eq_plain_iff (f : Bytes → Bytes) (lines : List Bytes) :
    (lines.filter valid).map f = (lines.filter isPlain).map f ↔
      ∀ v ∈ lines, valid v → isPlain v := by
  have hplain : lines.filter isPlain = (lines.filter valid).filter isPlain := by
    rw [filter_filter]
    apply filter_congr
    intro v _
    cases h : isPlain v with
    | false => rfl
    | true => rw [valid_of_isPlain h, Bool.true_and]
  rw [hplain]
  refine ⟨fun h => ?_, fun h => ?_⟩
  · have hlen := congrArg List.length h
    rw [length_map, length_map, eq_comm, length_filter_eq_length_iff] at hlen
    exact fun v hv hvalid => hlen v (mem_filter.mpr ⟨hv, hvalid⟩)
  · rw [filter_eq_self.mpr fun v hv => h v (mem_filter.mp hv).1 (mem_filter.mp hv).2]

/-- What an operation must find for both transports to leave the same: a replacement, values that
it rewrites alike, and the guard, a declared length that is text if it is to be restored. -/
def Alike (fields : lib.HeaderMap) : HeaderOp → Prop
  | .replace entry => RewritesAlike entry (lib.getAll fields entry.field)
  | .guard (some written) =>
    ∀ after ∈ lib.get fields contentLength, after ≠ written → Utf8.valid written
  | _ => True

variable {status : Nat} {fields : lib.HeaderMap} {headers : List H3Header}

/-- A replacement whose results are header values. -/
theorem replaceLines_eq {entry : HeaderReplacement} (hfld : isFieldName entry.field = true)
    (ht : ∀ text, valid text → isFieldValue (entry.replaceAll text) = true) (name : Bytes)
    (lines : List Bytes) :
    replaceLines lib.toHttpLib name lines entry =
      if eqIgnoreCase name entry.field ∧ lines.filter isPlain ≠ [] then
        (lines.filter isPlain).map entry.replaceAll
      else lines := by
  rw [replaceLines, filterMap_toStr]
  split
  · rw [filter_eq_self]
    intro v hv
    obtain ⟨text, ht', rfl⟩ := mem_map.mp hv
    rw [lib.accepts_eq, hfld]
    exact ht text (valid_of_isPlain (mem_filter.mp ht').2)
  · rfl

theorem sameFields_replace_iff (h : SameFields fields headers) {entry : HeaderReplacement}
    (hvalid : (HeaderOp.replace entry).Valid) :
    SameFields (replaceStep lib.toHttpLib fields entry) (h3ReplaceStep headers entry) ↔
      RewritesAlike entry (lib.getAll fields entry.field) := by
  obtain ⟨hfld, ht⟩ := hvalid
  have hsame : eqIgnoreCase entry.field entry.field = true := by simp [eqIgnoreCase]
  have hat {name : Bytes} (hn : isFieldName name = true) :
      h3Values (h3ReplaceStep headers entry) name =
          lib.getAll (replaceStep lib.toHttpLib fields entry) name ↔
        (eqIgnoreCase name entry.field → RewritesAlike entry (lib.getAll fields entry.field)) := by
    rw [h3ReplaceStep, h3Values_append, h3Values_removeH3Header, h3Values_map_mk, removeLines,
      getAll_replaceStep, replaceLines_eq hfld ht, h _ hfld, h _ hn, RewritesAlike]
    by_cases hname : eqIgnoreCase name entry.field = true
    · rw [lib.getAll_congr hname]
      by_cases hnone : (lib.getAll fields entry.field).filter isPlain = []
      · simpa [hname, hnone] using map_filter_valid_eq_self_iff _ _
      · simpa [hname, hnone] using map_filter_valid_eq_plain_iff _ _
    · simp [hname]
  exact ⟨fun hall => (hat hfld).mp (hall _ hfld) hsame, fun hal _ hn => (hat hn).mpr fun _ => hal⟩

theorem sameFields_guard_iff (h : SameFields fields headers) {written : Option Bytes}
    (hvalid : (HeaderOp.guard written).Valid) : ∃ next,
      (HeaderOp.guard written).run lib.toHttpLib fields = .ok next ∧
        (SameFields next ((HeaderOp.guard written).h3Run headers) ↔
          Alike fields (.guard written)) := by
  have hlen : isFieldName contentLength = true := by decide
  have hself : eqIgnoreCase contentLength contentLength = true := by simp [eqIgnoreCase]
  have hfound : h3Length headers = lib.get fields contentLength := by
    rw [h3Length, find_named, h _ hlen, HttpLib.get]
  have hdropped : SameFields (lib.remove fields contentLength)
      (removeH3Header headers contentLength) := by
    intro name hn
    rw [h3Values_removeH3Header, lib.getAll_remove, h name hn, removeLines]
  rw [HeaderOp.run, HeaderOp.h3Run.eq_def]
  dsimp only
  rw [hfound]
  cases written with
  | none =>
    cases lib.get fields contentLength with
    | none => exact ⟨_, rfl, iff_of_true h trivial⟩
    | some after => exact ⟨_, rfl, iff_of_true hdropped trivial⟩
  | some w =>
    cases hget : lib.get fields contentLength with
    | none => exact ⟨_, rfl, iff_of_true h (by simp [Alike, hget])⟩
    | some after =>
      by_cases hkept : w = after
      · refine ⟨fields, by simp [contentLengthVerdict, hkept], ?_⟩
        simpa [contentLengthVerdict, hkept, Alike, hget] using h
      · have hac : lib.accepts contentLength w = true := by
          rw [lib.accepts_eq, hlen, hvalid w rfl, Bool.true_and]
        refine ⟨lib.insert fields contentLength w, by
          simp [contentLengthVerdict, hkept, HttpLib.insertHeader, hac], ?_⟩
        have hlossy : lossy w = w ↔ valid w = true :=
          ⟨fun heq => heq ▸ valid_lossy w, lossy_of_valid⟩
        have hsame : SameFields (lib.insert fields contentLength w)
            (setH3Header headers contentLength (lossy w)) ↔ lossy w = w := by
          refine ⟨fun hall => ?_, fun heq name hn => ?_⟩
          · have := hall contentLength hlen
            rw [h3Values_setH3Header, lib.getAll_insert hac, if_pos hself, if_pos hself] at this
            exact (List.cons.inj this).1
          · rw [h3Values_setH3Header, lib.getAll_insert hac, heq, h name hn]
        simpa [contentLengthVerdict, hkept, Alike, hget, Ne.symm hkept, hlossy] using hsame

theorem sameFields_run {op : HeaderOp} (hvalid : op.Valid) (h : SameFields fields headers) :
    ∃ next, op.run lib.toHttpLib fields = .ok next ∧
      (SameFields next (op.h3Run headers) ↔ Alike fields op) := by
  cases op with
  | set entry =>
    obtain ⟨hn, hv, hsm⟩ := hvalid
    have hac : lib.accepts entry.name (entry.headerValue.getD entry.value) = true := by
      rw [hsm, lib.accepts_eq, hn, hv, Bool.true_and]
    refine ⟨_, okOr_eq_ok.mpr (if_pos hac), iff_of_true (fun name hname => ?_) trivial⟩
    rw [HeaderOp.h3Run, h3SetStep, h3Values_setH3Header, lib.getAll_insert hac, hsm,
      h name hname]
  | add added =>
    obtain ⟨hn, hv, hsm⟩ := hvalid
    have hac : lib.accepts added.name (added.headerValue.getD added.value) = true := by
      rw [hsm, lib.accepts_eq, hn, hv, Bool.true_and]
    refine ⟨_, okOr_eq_ok.mpr (if_pos hac), iff_of_true (fun name hname => ?_) trivial⟩
    rw [HeaderOp.h3Run, h3AddStep, h3Values_append, h3Values_singleton, lib.getAll_append hac, hsm,
      h name hname]
    split <;> simp
  | replace entry => exact ⟨_, rfl, sameFields_replace_iff h hvalid⟩
  | defaultSet entry =>
    obtain ⟨field, value⟩ := entry
    refine ⟨_, rfl, iff_of_true (fun name hname => ?_) trivial⟩
    rw [getAll_defaultStep, defaultLines, lib.accepts_eq, hvalid.1, hvalid.2, HeaderOp.h3Run,
      h3DefaultStep, any_named, h field hvalid.1]
    by_cases hn : eqIgnoreCase name field = true
    · rw [lib.getAll_congr hn]
      by_cases hnone : lib.getAll fields field = []
      · simp [hnone, hn, h3Values_append, h3Values_singleton, h name hname, lib.getAll_congr hn]
      · simp [hnone, h name hname, lib.getAll_congr hn]
    · split
      · simp [hn, h name hname]
      · simp [hn, h name hname, h3Values_append, h3Values_singleton]
  | remove field =>
    refine ⟨_, rfl, iff_of_true (fun name hname => ?_) trivial⟩
    rw [HeaderOp.h3Run, h3Values_removeH3Header, lib.getAll_remove, h name hname, removeLines]
  | guard written => exact sameFields_guard_iff h hvalid

/-- An operation on a response of both transports leaves the same fields exactly when it finds what
it must. -/
theorem mirrors_run {op : HeaderOp} (hvalid : op.Valid) (h : Mirrors status fields headers) :
    ∃ next, op.run lib.toHttpLib fields = .ok next ∧
      (Mirrors status next (op.h3Run headers) ↔ Alike fields op) := by
  obtain ⟨next, hrun, hiff⟩ := sameFields_run hvalid h.values_eq
  refine ⟨next, hrun, ?_⟩
  rw [← hiff]
  exact ⟨Mirrors.values_eq, fun hsame => ⟨(responseStatus_h3Run hvalid headers).trans h.status_eq,
    hsame⟩⟩

/-! ### Whole policies -/

/-- Every operation of a program finds what it must, on the fields that those before it leave. -/
def AlikeAlong : List HeaderOp → lib.HeaderMap → Prop
  | [], _ => True
  | op :: rest, fields =>
    Alike fields op ∧ ∀ next, op.run lib.toHttpLib fields = .ok next → AlikeAlong rest next

theorem mirrors_program {program : List HeaderOp} (hvalid : ∀ op ∈ program, op.Valid)
    (h : Mirrors status fields headers) (halike : AlikeAlong program fields) :
    ∃ last, program.foldlM (HeaderOp.run lib.toHttpLib) fields = .ok last ∧
      Mirrors status last (program.foldl HeaderOp.h3Run headers) := by
  induction program generalizing fields headers with
  | nil => exact ⟨fields, rfl, h⟩
  | cons op rest ih =>
    rw [forall_mem_cons] at hvalid
    obtain ⟨next, hrun, hiff⟩ := mirrors_run hvalid.1 h
    obtain ⟨last, hlast, hm⟩ := ih hvalid.2 (hiff.mpr halike.1) (halike.2 next hrun)
    exact ⟨last, bind_eq_ok.mpr ⟨next, hrun, hlast⟩, hm⟩

def Valid (policy : ResponseHeaderPolicy) : Prop :=
  ∀ ops ∈ policy.allOps, ∀ op ∈ ops.program none, op.Valid

/-- The blocks leave the same values of every field on both transports. -/
def Agrees (policy : ResponseHeaderPolicy) (status : Nat) (fields : lib.HeaderMap)
    (headers : List H3Header) : Prop :=
  ∃ progress, policy.applyBlocks lib.toHttpLib ⟨status, fields⟩ = .ok progress ∧
    SameFields progress.headers (policy.applyH3Blocks lib.toHttpMaps headers).headers

theorem valid_program {ops : HeaderOps} (h : ∀ op ∈ ops.program none, op.Valid)
    (fields : lib.HeaderMap) : ∀ op ∈ ops.program (lib.get fields contentLength), op.Valid := by
  simp only [HeaderOps.program, mem_append, mem_singleton] at h ⊢
  rintro op (hop | rfl)
  · exact h op (.inl hop)
  · exact fun w hw => (isFieldName_of_mem (mem_of_head? hw)).2

theorem mirrors_applyOps {ops : HeaderOps} (hvalid : ∀ op ∈ ops.program none, op.Valid)
    (h : Mirrors status fields headers)
    (halike : AlikeAlong (ops.program (lib.get fields contentLength)) fields) :
    ∃ after, ops.applyOps lib.toHttpLib fields = .ok after ∧
      Mirrors status after (ops.applyH3Ops headers) := by
  have hfound : h3Length headers = lib.get fields contentLength := by
    rw [h3Length, find_named, h.values_eq _ (by decide), HttpLib.get]
  rw [applyOps_eq, applyH3Ops_eq, hfound]
  exact mirrors_program (valid_program hvalid fields) h halike

/-- A block that applies, on the fields it finds, has operations that find what they must. -/
def AlikeBlock (block : HeaderOps × lib.HeaderMap) : Prop :=
  AlikeAlong (block.1.program (lib.get block.2 contentLength)) block.2

theorem mirrors_gated {gated : List GatedHeaderOps} {s : Progress lib.toHttpLib} {t : H3Progress}
    (hvalid : ∀ block ∈ gated, ∀ op ∈ block.ops.program none, op.Valid)
    (h : Mirrors status s.headers t.headers)
    (halike : ∀ block ∈ appliedBlocks lib.toHttpLib status s.headers gated, AlikeBlock block) :
    ∃ last, gated.foldlM (gatedStep lib.toHttpLib status) s = .ok last ∧
      Mirrors status last.headers (gated.foldl (h3GatedStep lib.toHttpMaps) t).headers := by
  induction gated generalizing s t with
  | nil => exact ⟨s, rfl, h⟩
  | cons block rest ih =>
    rw [forall_mem_cons] at hvalid
    have hgate := responseMatcherMatches_view h block.require
    rw [appliedBlocks] at halike
    rw [foldl_cons, h3GatedStep, hgate]
    by_cases hmatches : responseMatcherMatches lib.toHttpLib block.require status s.headers = true
    · rw [if_pos hmatches, forall_mem_cons] at halike
      obtain ⟨after, hap, hm⟩ := mirrors_applyOps hvalid.1 h halike.1
      rw [hap] at halike
      obtain ⟨last, hrest, hlast⟩ := ih (s := ⟨after, s.suppressServer || block.ops.suppressServer,
        s.suppressVia || block.ops.suppressVia⟩)
        (t := ⟨block.ops.applyH3Ops t.headers, t.suppressServer || block.ops.suppressServer⟩)
        hvalid.2 hm halike.2
      refine ⟨last, bind_eq_ok.mpr ⟨_, ?_, hrest⟩, ?_⟩
      · simp only [gatedStep, hmatches, hap]
        rfl
      · rwa [if_pos hmatches]
    · rw [if_neg hmatches] at halike
      obtain ⟨last, hrest, hlast⟩ := ih hvalid.2 h halike
      refine ⟨last, bind_eq_ok.mpr ⟨s, ?_, hrest⟩, ?_⟩
      · simp only [gatedStep, hmatches]
        rfl
      · rwa [if_neg hmatches]

theorem agrees_of_alike {policy : ResponseHeaderPolicy} (hvalid : policy.Valid)
    (h : Mirrors status fields headers)
    (halike : ∀ block ∈ policy.blocks lib.toHttpLib ⟨status, fields⟩, AlikeBlock block) :
    policy.Agrees status fields headers := by
  rw [Valid, allOps, forall_mem_cons] at hvalid
  rw [blocks, forall_mem_cons] at halike
  obtain ⟨after, hap, hm⟩ := mirrors_applyOps hvalid.1 h halike.1
  rw [hap] at halike
  obtain ⟨last, hlast, hm⟩ := mirrors_gated
    (s := ⟨after, policy.suppressServer, policy.suppressVia⟩)
    (t := ⟨policy.applyH3Ops headers, policy.suppressServer⟩)
    (fun block hblock => hvalid.2 _ (mem_map_of_mem (mem_reverse.mp hblock))) hm halike.2
  exact ⟨last, bind_eq_ok.mpr ⟨after, hap, hlast⟩, hm.values_eq⟩

/-- Both transports leave the same fields when every operation that runs finds what it must: a
replacement, values that are rewritten alike, and a guard that restores a length, one that is text.
An operation that finds something else leaves different fields. -/
theorem transports_agree (h : Mirrors status fields headers) :
    (∀ policy : ResponseHeaderPolicy, policy.Valid →
      (∀ block ∈ policy.blocks lib.toHttpLib ⟨status, fields⟩, AlikeBlock block) →
      policy.Agrees status fields headers) ∧
    ∀ op : HeaderOp, op.Valid → ∃ next, op.run lib.toHttpLib fields = .ok next ∧
      (Mirrors status next (op.h3Run headers) ↔ Alike fields op) :=
  ⟨fun _ hvalid halike => agrees_of_alike hvalid h halike, fun _ hvalid => mirrors_run hvalid h⟩

def h3Lines (status : Bytes) (lines : List FieldLine) : List H3Header :=
  ⟨ascii ":status", status⟩ :: lines.map fun line => ⟨line.name, line.value⟩

theorem h3Values_h3Lines (hn : isFieldName name = true) (status : Bytes) (lines : List FieldLine) :
    h3Values (h3Lines status lines) name = FieldLines.getAll lines name := by
  have hnt : (H3Header.mk (ascii ":status") status).named name = false := not_named_status hn
  rw [h3Values, h3Lines, filter_cons_of_neg (by simp [hnt]), filter_map, map_map]
  congr 1
  apply filter_congr
  intro line _
  simp [H3Header.named, eqIgnoreCase, fold_name]

theorem responseStatus_h3Lines (lines : List FieldLine) :
    responseStatus (h3Lines (ascii "200") lines) = 200 := by
  have hsts : (if valid (ascii "200") then parseUnsigned 65535 (ascii "200") else none) =
      some 200 := by decide
  rfl

theorem mirrors_h3Lines (fields : FieldLines.text.HeaderMap) :
    Mirrors 200 fields (h3Lines (ascii "200") fields) :=
  ⟨responseStatus_h3Lines fields, fun _ hn => h3Values_h3Lines hn _ fields⟩

def hideCity : HeaderReplacement where
  field := ascii "x-city"
  replaceAll _ := ascii "hidden"

def cityHidden : ResponseHeaderPolicy := { replace := [hideCity] }

def cityFields (city : Bytes) : FieldLines.text.HeaderMap :=
  FieldLines.ofPairs [(ascii "x-city", city)]

def malmo : Bytes := ascii "Malm" ++ [0xC3, 0xB6]

theorem hideCity_valid : cityHidden.Valid := by
  have hfld : isFieldName hideCity.field = true ∧ isFieldValue (ascii "hidden") = true := by decide
  simp only [Valid, allOps, cityHidden, HeaderOps.program, map_nil, map_cons, nil_append,
    append_nil, cons_append, mem_cons, not_mem_nil, or_false, forall_eq, forall_eq_or_imp]
  refine ⟨⟨hfld.1, fun _ _ => hfld.2⟩, fun w hw => ?_⟩
  cases hw

theorem transports_agree_lund :
    cityHidden.Agrees 200 (cityFields (ascii "Lund"))
      (h3Lines (ascii "200") (cityFields (ascii "Lund"))) := by
  refine (transports_agree (mirrors_h3Lines _)).1 _ hideCity_valid ?_
  have hblocks : cityHidden.blocks FieldLines.text.toHttpLib ⟨200, cityFields (ascii "Lund")⟩ =
      [(cityHidden.toHeaderOps, cityFields (ascii "Lund"))] := by
    simp only [blocks, cityHidden, reverse_nil, appliedBlocks]
    split <;> rfl
  have hlund : RewritesAlike hideCity
      (FieldLines.text.getAll (cityFields (ascii "Lund")) hideCity.field) := by
    have hfound : FieldLines.text.getAll (cityFields (ascii "Lund")) hideCity.field =
        [ascii "Lund"] := by decide
    have hplain : isPlain (ascii "Lund") = true := by decide
    simp [hfound, RewritesAlike, hplain]
  rw [hblocks, forall_mem_singleton]
  exact ⟨hlund, fun _ _ => ⟨trivial, fun _ _ => trivial⟩⟩

/-- A name that is not ASCII is hidden over HTTP/3 only. -/
theorem not_agrees_malmo :
    cityHidden.Valid ∧
      Mirrors 200 (cityFields malmo) (h3Lines (ascii "200") (cityFields malmo)) ∧
      (cityHidden.applyBlocks FieldLines.http ⟨200, cityFields malmo⟩).toOption.map
          (fun progress => FieldLines.getAll progress.headers (ascii "x-city")) = some [malmo] ∧
      h3Values (cityHidden.applyH3Blocks FieldLines.maps
          (h3Lines (ascii "200") (cityFields malmo))).headers (ascii "x-city") =
        [ascii "hidden"] ∧
      ¬ cityHidden.Agrees 200 (cityFields malmo) (h3Lines (ascii "200") (cityFields malmo)) := by
  have hmap : (cityHidden.applyBlocks FieldLines.http ⟨200, cityFields malmo⟩).toOption.map
      (fun progress => FieldLines.getAll progress.headers (ascii "x-city")) = some [malmo] := by
    decide
  have hlist : h3Values (cityHidden.applyH3Blocks FieldLines.maps
      (h3Lines (ascii "200") (cityFields malmo))).headers (ascii "x-city") = [ascii "hidden"] := by
    decide
  refine ⟨hideCity_valid, mirrors_h3Lines _, hmap, hlist, ?_⟩
  rintro ⟨progress, hrun, hsame⟩
  have hcity := hsame (ascii "x-city") (by decide)
  rw [show cityHidden.applyBlocks FieldLines.http ⟨200, cityFields malmo⟩ = .ok progress from hrun]
    at hmap
  have hleft : FieldLines.getAll progress.headers (ascii "x-city") = [malmo] :=
    Option.some.inj hmap
  exact absurd (hlist.symm.trans (hcity.trans hleft)) (by decide)

end ResponseHeaderPolicy

end Pingclair
