import Pingclair.Static.Serve

/-!
# Lists of entity tags

A field line lists tags between commas, with blanks around them. Elements may be empty, and a reader
passes over them. The scan takes one comma off before each tag, so an empty element that is not the
first of its line ends it.
-/

namespace Pingclair.TagLists

open ByteText List

abbrev comma : UInt8 := 0x2C

structure Tag where
  weak : Bool
  inner : Bytes
  closed : tagQuote ∉ inner

namespace Tag

variable (tag : Tag)

def quoted : Bytes := tagQuote :: tag.inner ++ [tagQuote]

def text : Bytes := (if tag.weak then weakMark else []) ++ tag.quoted

/-- RFC 9110 §8.8.3.2. -/
def agrees (comparison : Comparison) (etag : Bytes) : Bool :=
  match comparison with
  | .strong => !tag.weak && !(splitWeak etag).1 && tag.quoted == (splitWeak etag).2
  | .weak => tag.quoted == (splitWeak etag).2

end Tag

structure Element where
  before : Bytes
  tag : Option Tag
  after : Bytes
  blank : ∀ b ∈ before ++ after, isAsciiWhitespace b = true

def Element.text (e : Element) : Bytes := e.before ++ e.tag.elim [] Tag.text ++ e.after

def following (elements : List Element) : Bytes := elements.flatMap (comma :: ·.text)

def lineText : List Element → Bytes
  | [] => []
  | first :: rest => first.text ++ following rest

/-- The tags in front of the first empty element. -/
def contiguous (elements : List Element) : List Tag :=
  (elements.takeWhile (·.tag.isSome)).filterMap (·.tag)

/-- The tags that the scan comes to. -/
def reached : List Element → List Tag
  | [] => []
  | e :: rest => if e.tag.isNone then contiguous rest else contiguous (e :: rest)

theorem contiguous_cons (e : Element) (rest : List Element) :
    contiguous (e :: rest) = e.tag.elim [] (· :: contiguous rest) := by
  rw [contiguous, takeWhile_cons]
  cases htag : e.tag with
  | none => rfl
  | some tag => exact filterMap_cons_some htag

theorem exists_text_append (tag : Tag) (rest : Bytes) : ∃ b s, tag.text ++ rest = b :: s ∧
    isAsciiWhitespace b = false ∧ b ≠ comma ∧ b ≠ star := by
  rw [Tag.text]
  cases tag.weak with
  | true => exact ⟨_, _, rfl, by decide⟩
  | false => exact ⟨_, _, rfl, by decide⟩

theorem trimAsciiStart_cons {b : UInt8} (h : isAsciiWhitespace b = false) (s : Bytes) :
    trimAsciiStart (b :: s) = b :: s :=
  dropWhile_cons_of_neg (by simp [h])

theorem dropPrefix?_comma {b : UInt8} (h : b ≠ comma) (s : Bytes) :
    (b :: s).dropPrefix? [0x2C] = none := by
  simpa [List.dropPrefix?] using h

theorem nextTag_trim (s : Bytes) : nextTag (trimAsciiStart s) = nextTag s := by
  have htr : trimAsciiStart (trimAsciiStart s) = trimAsciiStart s := dropWhile_idempotent _ _
  rw [nextTag, nextTag, htr]

theorem nextTag_comma (s : Bytes) : nextTag (comma :: s) =
    if (trimAsciiStart s).head? = some comma then none else nextTag s := by
  have hdr : (trimAsciiStart (comma :: s)).dropPrefix? [0x2C] = some s :=
    dropPrefix?_eq_some.mpr rfl
  have htr : trimAsciiStart (trimAsciiStart s) = trimAsciiStart s := dropWhile_idempotent _ _
  rw [← nextTag_trim s, nextTag]
  simp only [hdr, Option.getD_some]
  cases h : trimAsciiStart s with
  | nil => rfl
  | cons b t =>
    rw [h] at htr
    by_cases hb : b = comma
    · rw [hb]
      rfl
    · rw [if_neg (by simpa using hb), nextTag]
      simp [htr, dropPrefix?_comma hb]

theorem nextTag_text (tag : Tag) (rest : Bytes) :
    nextTag (tag.text ++ rest) = some (tag.weak, tag.quoted, rest) := by
  have hsp : splitWeak (tag.text ++ rest) = (tag.weak, tag.quoted ++ rest) := by
    rw [Tag.text]
    cases tag.weak with
    | true => rfl
    | false => rfl
  have hqt : (tag.quoted ++ rest).dropPrefix? [tagQuote] =
      some (tag.inner ++ tagQuote :: rest) := dropPrefix?_eq_some.mpr (by simp [Tag.quoted])
  obtain ⟨b, s, hcn, hblank, hcomma, -⟩ := exists_text_append tag rest
  rw [hcn] at hsp ⊢
  rw [nextTag]
  simp only [trimAsciiStart_cons hblank, dropPrefix?_comma hcomma, Option.getD_none, hsp,
    hqt, Option.bind_some, splitOnce_append tag.closed]
  rfl

theorem trim_element (e : Element) (rest : Bytes) : trimAsciiStart (e.text ++ rest) =
    e.tag.elim (trimAsciiStart rest) fun tag => tag.text ++ (e.after ++ rest) := by
  have hbe : ∀ b ∈ e.before, isAsciiWhitespace b = true := fun b hb =>
    e.blank b (mem_append_left _ hb)
  rw [Element.text, append_assoc, append_assoc, trimAsciiStart, dropWhile_append_of_pos hbe]
  cases e.tag with
  | none => exact dropWhile_append_of_pos fun b hb => e.blank b (mem_append_right _ hb)
  | some tag =>
    obtain ⟨b, s, hcn, hblank, -⟩ := exists_text_append tag (e.after ++ rest)
    rw [Option.elim_some, Option.elim_some, hcn]
    exact trimAsciiStart_cons hblank s

theorem trim_following (rest : List Element) :
    trimAsciiStart (following rest) = following rest := by
  cases rest <;> rfl

section Scan

variable {isMatch : Bool → Bytes → Bool}

theorem scanTags_eq (s : Bytes) : scanTags isMatch s =
    (nextTag s).elim false fun next => isMatch next.1 next.2.1 || scanTags isMatch next.2.2 := by
  rw [scanTags]
  split
  · next h => rw [h]; rfl
  · next h => rw [h]; rfl

theorem scanTags_after (e : Element) (rest : List Element) :
    scanTags isMatch (e.after ++ following rest) = scanTags isMatch (following rest) := by
  have haf : trimAsciiStart (e.after ++ following rest) = following rest :=
    (dropWhile_append_of_pos fun b hb => e.blank b (mem_append_right _ hb)).trans
      (trim_following rest)
  rw [scanTags_eq, ← nextTag_trim, haf, ← scanTags_eq]

theorem scanTags_following (els : List Element) : scanTags isMatch (following els) =
    (contiguous els).any fun tag => isMatch tag.weak tag.quoted := by
  induction els with
  | nil => rw [scanTags_eq]; rfl
  | cons e rest ih =>
    have htr := trim_element e (following rest)
    change scanTags isMatch (comma :: (e.text ++ following rest)) = _
    rw [scanTags_eq, nextTag_comma, contiguous_cons, ← nextTag_trim (e.text ++ _), htr]
    cases e.tag with
    | none =>
      cases rest <;> rfl
    | some tag =>
      obtain ⟨b, s, hcn, -, hcomma, -⟩ := exists_text_append tag (e.after ++ following rest)
      have hhd : (tag.text ++ (e.after ++ following rest)).head? ≠ some comma := by
        rw [hcn]
        simpa using hcomma
      rw [Option.elim_some, if_neg hhd, nextTag_text, Option.elim_some, scanTags_after, ih]
      rfl

theorem scanTags_line (els : List Element) : scanTags isMatch (lineText els) =
    (reached els).any fun tag => isMatch tag.weak tag.quoted := by
  cases els with
  | nil => rw [scanTags_eq]; rfl
  | cons e rest =>
    rw [lineText, scanTags_eq, ← nextTag_trim, trim_element, reached, contiguous_cons]
    cases e.tag with
    | none =>
      rw [Option.elim_none, trim_following, ← scanTags_eq, scanTags_following]
      rfl
    | some tag =>
      rw [Option.elim_some, nextTag_text, Option.elim_some, scanTags_after, scanTags_following]
      rfl

end Scan

/-- A list of tags is not a star. -/
theorem trimAscii_line (els : List Element) : trimAscii (lineText els) ≠ ascii "*" := by
  intro hstar
  obtain ⟨s, hs⟩ := rdropWhile_prefix isAsciiWhitespace (trimAsciiStart (lineText els))
  rw [show List.rdropWhile _ _ = ascii "*" from hstar] at hs
  cases els with
  | nil => cases hs
  | cons e rest =>
    rw [lineText, trim_element] at hs
    cases htag : e.tag with
    | none =>
      rw [htag, trim_following] at hs
      cases rest <;> cases hs
    | some tag =>
      obtain ⟨b, t, hcn, -, -, hb⟩ := exists_text_append tag (e.after ++ following rest)
      rw [htag, Option.elim_some, hcn] at hs
      exact hb (List.cons.inj hs).1.symm

/-- The tags of a field that are compared are those that the scan comes to on some line. -/
theorem anyTagMatches_eq {http : HttpMaps} {hdrs : http.HeaderMap} {name : Bytes}
    {lines : List (List Element)} (h : http.getAll hdrs name = lines.map lineText)
    (etag : Bytes) (cmp : Comparison) :
    anyTagMatches http hdrs name etag cmp =
      lines.any fun line => (reached line).any (·.agrees cmp etag) := by
  rw [anyTagMatches, h, any_map]
  congr 1
  funext line
  simp only [Function.comp_apply, beq_eq_false_iff_ne.mpr (trimAscii_line line), Bool.false_or,
    scanTags_line]
  cases cmp <;> rfl

theorem mem_contiguous {tag : Tag} {els : List Element} (h : tag ∈ contiguous els) :
    ∃ e ∈ els, tag ∈ e.tag := by
  obtain ⟨e, he, htag⟩ := mem_filterMap.mp h
  exact ⟨e, (takeWhile_sublist _).subset he, htag⟩

theorem mem_reached {tag : Tag} {els : List Element} (h : tag ∈ reached els) :
    ∃ e ∈ els, tag ∈ e.tag := by
  cases els with
  | nil => cases h
  | cons e rest =>
    rw [reached] at h
    split at h
    · obtain ⟨e', he', htag'⟩ := mem_contiguous h
      exact ⟨e', mem_cons_of_mem _ he', htag'⟩
    · exact mem_contiguous h

structure DateText where
  text : Bytes
  noTag : weakMark.isPrefixOf text = false ∧ [tagQuote].isPrefixOf text = false
  trimmed : trim text = text

inductive Validator where
  | entityTag (tag : Tag)
  | httpDate (date : DateText)

namespace Validator

def text : Validator → Bytes
  | entityTag tag => tag.text
  | httpDate date => date.text

/-- RFC 9110 §13.1.5: tags are compared strongly, and a date has to be that of the last change and
strong, which it is once the second it names is over. -/
def holds (basis : FileServer.RangeBasis) (now : SystemTime) : Validator → Bool
  | entityTag tag => tag.agrees .strong basis.etag
  | httpDate date => basis.lastModified == some date.text &&
      basis.modified.any fun modified => decide (nanosPerSecond ≤ now - modified)

theorem trim_text (validator : Validator) : trim validator.text = validator.text := by
  cases validator with
  | httpDate date => exact date.trimmed
  | entityTag tag =>
    have hst : tag.text.dropWhile isWhitespace = tag.text := by
      rw [Tag.text]
      cases tag.weak <;> rfl
    rw [text, trim, hst, Tag.text, Tag.quoted, ← append_assoc]
    exact rdropWhile_concat_neg isWhitespace _ tagQuote (by decide)

theorem ifRangeHolds_text (validator : Validator) (basis : FileServer.RangeBasis)
    (now : SystemTime) :
    ifRangeHolds (some validator.text) basis.etag basis.lastModified basis.modified now =
      validator.holds basis now := by
  rw [ifRangeHolds, Option.map_some, validator.trim_text]
  cases validator with
  | entityTag tag =>
    have hweak : weakMark.isPrefixOf basis.etag = (basis.etag.dropPrefix? weakMark).isSome := by
      rw [Bool.eq_iff_iff, isPrefixOf_iff_prefix, Option.isSome_iff_exists]
      simp [dropPrefix?_eq_some, List.IsPrefix, eq_comm]
    rw [holds, Tag.agrees, text, Tag.text, splitWeak, hweak]
    cases tag.weak with
    | true => rfl
    | false =>
      cases basis.etag.dropPrefix? weakMark with
      | some quoted => rfl
      | none => exact Bool.beq_comm
  | httpDate date =>
    simp only [holds, text, date.noTag, Bool.false_eq_true, if_false]
    cases basis.lastModified <;> cases basis.modified <;> simp

end Validator

section Range

variable {lib : StaticLib} (server : FileServer) (found : Snapshot)
  (request : FileRequest lib.http) (fileSize : Nat) (basis : FileServer.RangeBasis)
  (validators : List Validator)

/-- Steps 5 and 6 of §13.2.2: a range counts for `GET` alone, and then if no validator is there or
one that holds. A field with several validators names none. -/
def rangeCounts : Bool :=
  request.method == ascii "GET" &&
    match validators with
    | [] => true
    | [validator] => validator.holds basis found.now
    | _ => false

/-- The fields that the window depends on: the range when it counts, and neither otherwise. -/
def withRangeOnly (counts : Bool) : FileRequest lib.http :=
  { request with
    headers := lib.http.remove
      (if counts then request.headers else lib.http.remove request.headers (ascii "range"))
      (ascii "if-range") }

/-- A range that a file of this length has or lacks, and not one to be ignored. -/
def AsksRange : Prop := ∃ range ∈ request.range, parseRange range basis.length ≠ .ignored

/-- The first validator of `If-Range` is text and does not hold, or the method is `GET` and the
field is absent or a single validator that holds. -/
def RangeRead : List Validator → Prop
  | [] => request.method = ascii "GET"
  | validator :: rest =>
    (lib.http.toStr validator.text).isSome ∧ validator.holds basis found.now = false ∨
      request.method = ascii "GET" ∧ rest = [] ∧ validator.holds basis found.now = true

theorem applyRange_withRangeOnly (counts : Bool) :
    server.applyRange found (withRangeOnly request counts) fileSize basis =
      if counts then
        server.applyRange found (withRangeOnly request true) fileSize basis
      else some ⟨server.config.status.getD 200, none, 0, fileSize⟩ := by
  cases counts with
  | true => rfl
  | false =>
    have hnone : (withRangeOnly request false).range = none := by
      rw [FileRequest.range, FileRequest.field, HttpLib.get, withRangeOnly, lib.http.getAll_remove,
        if_neg (by decide)]
      simp [lib.http.getAll_remove, AsciiCase.eqIgnoreCase]
    simp [FileServer.applyRange, hnone]

theorem range_withRangeOnly : (withRangeOnly request true).range = request.range := by
  rw [FileRequest.range, FileRequest.range, FileRequest.field, FileRequest.field, HttpLib.get,
    HttpLib.get, withRangeOnly, lib.http.getAll_remove, if_neg (by decide)]
  rfl

theorem ifRange_withRangeOnly : (withRangeOnly request true).ifRange = none := by
  rw [FileRequest.ifRange, FileRequest.field, HttpLib.get, withRangeOnly, lib.http.getAll_remove,
    if_pos (by decide)]
  rfl

/-- A range counts for the server when `If-Range` holds, or is not read. -/
theorem applyRange_eq : server.applyRange found request fileSize basis =
    server.applyRange found (withRangeOnly request
      (ifRangeHolds request.ifRange basis.etag basis.lastModified basis.modified found.now))
      fileSize basis := by
  rw [applyRange_withRangeOnly, FileServer.applyRange, FileServer.applyRange, range_withRangeOnly,
    ifRange_withRangeOnly]
  cases request.range with
  | none => simp
  | some range => simp [ifRangeHolds]

/-- A range makes a difference exactly when it is asked for. -/
theorem applyRange_true_eq_whole_iff :
    server.applyRange found (withRangeOnly request true) fileSize basis =
        some ⟨server.config.status.getD 200, none, 0, fileSize⟩ ↔
      ¬ AsksRange request basis := by
  rw [FileServer.applyRange, range_withRangeOnly, ifRange_withRangeOnly, AsksRange]
  cases request.range with
  | none => simp
  | some range =>
    simp only [ifRangeHolds, Option.map_none, if_true, Option.mem_some_iff, exists_eq_left',
      not_not]
    cases parseRange range basis.length <;> simp

variable
  (h : lib.http.getAll request.headers (ascii "if-range") = validators.map Validator.text)

include h

theorem ifRangeHolds_eq_iff :
    ifRangeHolds request.ifRange basis.etag basis.lastModified basis.modified found.now =
        rangeCounts found request basis validators ↔
      RangeRead found request basis validators := by
  rw [FileRequest.ifRange, FileRequest.field, HttpLib.get, h, rangeCounts.eq_def]
  cases validators with
  | nil => simp [ifRangeHolds, RangeRead]
  | cons validator rest =>
    rw [map_cons, head?_cons, Option.bind_some, RangeRead]
    cases htext : lib.http.toStr validator.text with
    | none => cases rest <;> simp [ifRangeHolds]
    | some text =>
      obtain rfl := (lib.http.toStr_eq htext).1
      rw [Validator.ifRangeHolds_text]
      cases hholds : validator.holds basis found.now <;> cases rest <;> simp [hholds]

theorem applyRange_iff :
    server.applyRange found request fileSize basis =
        server.applyRange found
          (withRangeOnly request (rangeCounts found request basis validators)) fileSize basis ↔
      (AsksRange request basis → RangeRead found request basis validators) := by
  rw [← ifRangeHolds_eq_iff found request basis validators h, applyRange_eq,
    applyRange_withRangeOnly,
    applyRange_withRangeOnly server found request fileSize basis (rangeCounts ..)]
  have hwhole := applyRange_true_eq_whole_iff server found request fileSize basis
  generalize ifRangeHolds _ _ _ _ _ = reads, rangeCounts .. = counts
  cases reads <;> cases counts <;> simp [hwhole, eq_comm]

end Range

section Evaluation

variable {http : HttpMaps} (parseHttpDate : Bytes → Option SystemTime)

/-- Steps 1 to 4 of RFC 9110 §13.2.2; a condition is `none` when its field is absent or ignored. -/
def inOrder (isRetrieval : Bool)
    (ifMatch ifUnmodifiedSince ifNoneMatch ifModifiedSince : Option Bool) : Precondition :=
  if ifMatch.or ifUnmodifiedSince = some false then .failed
  else
    match ifNoneMatch with
    | some true => .proceed
    | some false => if isRetrieval then .notModified else .failed
    | none => if isRetrieval && ifModifiedSince == some false then .notModified else .proceed

variable (request : FileRequest http)

/-- A date that stands alone in its field; a list of dates is ignored. -/
def soleDate (name : Bytes) : Option Nat :=
  if (http.getAll request.headers name).length = 1 then request.dateField parseHttpDate name
  else none

def tagField (name etag : Bytes) (comparison : Comparison) : Option Bool :=
  if request.contains name then
    some (anyTagMatches http request.headers name etag comparison)
  else none

def unchanged (name : Bytes) (modified : Option SystemTime) : Option Bool :=
  Option.map₂ (fun since modified => decide (epochSeconds modified ≤ since))
    (request.dateField parseHttpDate name) modified

def Listed (comparison : Comparison) (etag : Bytes) (lines : List (List Element)) : Prop :=
  ∃ line ∈ lines, ∃ e ∈ line, ∃ tag ∈ e.tag, tag.agrees comparison etag = true

/-- A tag matches that stands in front of the empty elements of its line, the first element
apart. -/
def Found (comparison : Comparison) (etag : Bytes) (lines : List (List Element)) : Prop :=
  ∃ line ∈ lines, ∃ tag ∈ reached line, tag.agrees comparison etag = true

theorem anyTagMatches_iff {name etag : Bytes} {cmp : Comparison}
    {lines : List (List Element)} (h : http.getAll request.headers name = lines.map lineText) :
    (anyTagMatches http request.headers name etag cmp = true ↔
      Listed cmp etag lines) ↔
      (Listed cmp etag lines → Found cmp etag lines) := by
  have hfd : anyTagMatches http request.headers name etag cmp = true ↔ Found cmp etag lines := by
    simp [anyTagMatches_eq h, Found]
  have hltd : Found cmp etag lines → Listed cmp etag lines := by
    rintro ⟨line, hli, tag, htag, hag⟩
    obtain ⟨e, he, htag⟩ := mem_reached htag
    exact ⟨line, hli, e, he, tag, htag, hag⟩
  rw [hfd]
  exact ⟨Iff.mpr, fun h => ⟨hltd, h⟩⟩

theorem changeGuardFails_eq (etag : Bytes) (modified : Option SystemTime) :
    request.changeGuardFails parseHttpDate etag modified =
      decide ((tagField request (ascii "if-match") etag .strong).or
        (unchanged parseHttpDate request (ascii "if-unmodified-since") modified) =
        some false) := by
  rw [FileRequest.changeGuardFails.eq_def, tagField, unchanged]
  split
  · cases anyTagMatches http request.headers (ascii "if-match") etag .strong <;> rfl
  · cases request.dateField parseHttpDate (ascii "if-unmodified-since") with
    | none => rfl
    | some s =>
      cases modified with
      | none => rfl
      | some modified => simp

theorem cacheGuard_eq (etag : Bytes) (modified : Option SystemTime) :
    request.cacheGuard parseHttpDate etag modified = inOrder request.isRetrieval none none
      ((tagField request (ascii "if-none-match") etag .weak).map not)
      ((unchanged parseHttpDate request (ascii "if-modified-since") modified).map not) := by
  rw [FileRequest.cacheGuard.eq_def, inOrder.eq_def, tagField, unchanged]
  cases request.contains (ascii "if-none-match") with
  | true => cases anyTagMatches http request.headers (ascii "if-none-match") etag .weak <;> rfl
  | false =>
    cases request.isRetrieval with
    | false => rfl
    | true =>
      cases request.dateField parseHttpDate (ascii "if-modified-since") with
      | none => rfl
      | some s =>
        cases modified with
        | none => rfl
        | some modified => simp

/-- A list of dates is read by its first line. -/
theorem dateField_iff (name : Bytes) :
    request.dateField parseHttpDate name = soleDate parseHttpDate request name ↔
      (1 < (http.getAll request.headers name).length →
        ∀ line ∈ (http.getAll request.headers name).head?, ∀ text ∈ http.toStr line,
          parseHttpDate (trim text) = none) := by
  rw [soleDate, FileRequest.dateField, FileRequest.field, HttpLib.get]
  cases http.getAll request.headers name with
  | nil => simp
  | cons line rest =>
    cases rest with
    | nil => simp
    | cons _ _ => cases http.toStr line <;> simp

/-- Tests of `If-Match`, `If-Unmodified-Since`, `If-None-Match` and `If-Modified-Since` come in the
order of the RFC. Tag lists are read as they are meant exactly when a tag that matches is found if
one is listed, dates exactly when no list of them begins with a date, and a range that is asked for
counts as it should exactly when `If-Range` is read, if it is there, and the method is `GET` or
`If-Range` does not hold. -/
theorem evaluate_exact {lib : StaticLib} (request : FileRequest lib.http) (etag : Bytes)
    (modified : Option SystemTime) :
    request.evaluate parseHttpDate etag modified = inOrder request.isRetrieval
      (tagField request (ascii "if-match") etag .strong)
      (unchanged parseHttpDate request (ascii "if-unmodified-since") modified)
      ((tagField request (ascii "if-none-match") etag .weak).map not)
      ((unchanged parseHttpDate request (ascii "if-modified-since") modified).map not) ∧
    (∀ name comparison (lines : List (List Element)),
      lib.http.getAll request.headers name = lines.map lineText →
      ((anyTagMatches lib.http request.headers name etag comparison = true ↔
          Listed comparison etag lines) ↔
        (Listed comparison etag lines → Found comparison etag lines))) ∧
    (∀ name, request.dateField parseHttpDate name = soleDate parseHttpDate request name ↔
      (1 < (lib.http.getAll request.headers name).length →
        ∀ line ∈ (lib.http.getAll request.headers name).head?, ∀ text ∈ lib.http.toStr line,
          parseHttpDate (trim text) = none)) ∧
    ∀ (server : FileServer) found fileSize basis (validators : List Validator),
      lib.http.getAll request.headers (ascii "if-range") = validators.map Validator.text →
      (server.applyRange found request fileSize basis =
          server.applyRange found
            (withRangeOnly request (rangeCounts found request basis validators)) fileSize basis ↔
        (AsksRange request basis → RangeRead found request basis validators)) := by
  refine ⟨?_, fun _ _ _ h => anyTagMatches_iff request h, dateField_iff parseHttpDate request,
    fun server found fileSize basis validators h =>
      applyRange_iff server found request fileSize basis validators h⟩
  rw [FileRequest.evaluate, changeGuardFails_eq, cacheGuard_eq, inOrder.eq_def]
  simp only [decide_eq_true_eq]
  rfl

end Evaluation

def bare (tag : Option Tag) : Element := ⟨[], tag, [], by simp⟩

def second : Tag := ⟨false, ascii "b", by decide⟩

def gap : List Element := [bare (some ⟨false, ascii "a", by decide⟩), bare none, bare (some second)]

/-- The tag behind an empty element is listed and matches, and is not found. -/
theorem anyTagMatches_gap :
    anyTagMatches FieldLines.maps
        (FieldLines.ofPairs [(ascii "if-none-match", ascii "\"a\",,\"b\"")])
        (ascii "if-none-match") second.text .weak = false ∧
      lineText gap = ascii "\"a\",,\"b\"" ∧ Listed .weak second.text [gap] := by
  refine ⟨?_, by decide, gap, by simp, bare (some second), by simp [gap], second, rfl, by decide⟩
  have hls : FieldLines.maps.getAll
      (FieldLines.ofPairs [(ascii "if-none-match", ascii "\"a\",,\"b\"")])
      (ascii "if-none-match") = [gap].map lineText := by decide
  rw [anyTagMatches_eq hls]
  decide

end Pingclair.TagLists
