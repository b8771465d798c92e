import Pingclair.Http.HeaderMap
import Pingclair.Static.Validators

/-!
# Conditional requests

A request may say that it is meant for one version of a file only. `FileRequest.evaluate` weighs
the four fields that do, in the order of RFC 9110 §13.2.2, against the tag and the time of the
representation that would be sent.
-/

namespace Pingclair

open ByteText

/-- Edits the fields of a response with a status; false when an edit failed. -/
abbrev ResponsePolicy (http : HttpMaps) := Nat → http.HeaderMap → Bool × http.HeaderMap

structure FileRequest (http : HttpMaps) where
  method : Bytes
  headers : http.HeaderMap
  responsePolicy : Option (ResponsePolicy http)

namespace FileRequest

variable {http : HttpMaps} (request : FileRequest http)

def field (name : Bytes) : Option Bytes := (http.get request.headers name).bind http.toStr

def range : Option Bytes := request.field (ascii "range")

def ifRange : Option Bytes := request.field (ascii "if-range")

def contains (name : Bytes) : Bool := (http.get request.headers name).isSome

/-- Whether the tag of the representation matters to the request. -/
def comparesEntityTags : Bool :=
  request.contains (ascii "if-match") || request.contains (ascii "if-none-match")

def isRetrieval : Bool := request.method == ascii "GET" || request.method == ascii "HEAD"

def preconditions : List Bytes :=
  [ascii "if-match", ascii "if-none-match", ascii "if-modified-since",
    ascii "if-unmodified-since"]

def hasPreconditions : Bool := preconditions.any request.contains

def withoutPreconditions : FileRequest http :=
  { request with headers := preconditions.foldl http.remove request.headers }

end FileRequest

inductive Comparison where
  | strong
  | weak

def splitWeak (tag : Bytes) : Bool × Bytes :=
  match tag.dropPrefix? weakMark with
  | some quoted => (true, quoted)
  | none => (false, tag)

/-- The next tag of a list: whether it is weak, its quoted part, and what follows it. -/
def nextTag (rest : Bytes) : Option (Bool × Bytes × Bytes) :=
  let rest := trimAsciiStart rest
  let rest := trimAsciiStart ((rest.dropPrefix? [0x2C]).getD rest)
  let tag := splitWeak rest
  match (tag.2.dropPrefix? [tagQuote]).bind (splitOnce tagQuote) with
  | some (inner, after) => some (tag.1, tagQuote :: inner ++ [tagQuote], after)
  | none => none

theorem length_trimAsciiStart_le (s : Bytes) : (trimAsciiStart s).length ≤ s.length :=
  (List.dropWhile_sublist _).length_le

theorem length_getD_dropPrefix?_le (s t : Bytes) :
    ((s.dropPrefix? t).getD s).length ≤ s.length := by
  cases h : s.dropPrefix? t with
  | none => exact Nat.le_refl _
  | some u =>
    rw [dropPrefix?_eq_some.mp h, List.length_append]
    exact Nat.le_add_left _ _

theorem length_splitWeak_le (s : Bytes) : (splitWeak s).2.length ≤ s.length := by
  have h := length_getD_dropPrefix?_le s weakMark
  rw [splitWeak]
  cases hdr : s.dropPrefix? weakMark with
  | none => exact Nat.le_refl _
  | some u => rwa [hdr] at h

theorem length_lt_of_nextTag {rest value after : Bytes} {weak : Bool}
    (h : nextTag rest = some (weak, value, after)) : after.length < rest.length := by
  rw [nextTag] at h
  set ins := trimAsciiStart rest with hinside
  set tag := trimAsciiStart ((ins.dropPrefix? [0x2C]).getD ins) with htag
  have hlen : (splitWeak tag).2.length ≤ rest.length :=
    calc (splitWeak tag).2.length ≤ tag.length := length_splitWeak_le tag
      _ ≤ ((ins.dropPrefix? [0x2C]).getD ins).length := length_trimAsciiStart_le _
      _ ≤ ins.length := length_getD_dropPrefix?_le _ _
      _ ≤ rest.length := length_trimAsciiStart_le rest
  split at h
  · next i f hsp =>
    obtain ⟨tail, htl, honce⟩ := Option.bind_eq_some_iff.mp hsp
    have hqt := congrArg List.length (dropPrefix?_eq_some.mp htl)
    have hin := congrArg List.length (splitOnce_eq_some honce).1
    obtain ⟨-, -, rfl⟩ := h
    simp only [List.length_append, List.length_cons, List.length_nil] at hqt hin
    omega
  · simp at h

/-- Whether one of the tags of a line matches; the line is given up at the first text that is
no tag. -/
def scanTags (isMatch : Bool → Bytes → Bool) (rest : Bytes) : Bool :=
  match _h : nextTag rest with
  | none => false
  | some (weak, value, after) => isMatch weak value || scanTags isMatch after
termination_by rest.length
decreasing_by exact length_lt_of_nextTag _h

/-- Whether a tag on a line of the field matches the current one, or the field is `*`. -/
def anyTagMatches (http : HttpMaps) (headers : http.HeaderMap) (name etag : Bytes)
    (comparison : Comparison) : Bool :=
  let current := splitWeak etag
  (http.getAll headers name).any fun line =>
    trimAscii line == ascii "*" || scanTags (fun weak value =>
      match comparison with
      | .strong => !weak && !current.1 && value == current.2
      | .weak => value == current.2) line

inductive Precondition where
  | proceed
  | notModified
  | failed
  deriving DecidableEq

def epochSeconds (time : SystemTime) : Nat := time.toNat / nanosPerSecond

namespace FileRequest

variable {http : HttpMaps} (parseHttpDate : Bytes → Option SystemTime)

def dateField (request : FileRequest http) (name : Bytes) : Option Nat :=
  ((request.field name).bind fun value => parseHttpDate (trim value)).map epochSeconds

def changeGuardFails (request : FileRequest http) (etag : Bytes) (modified : Option SystemTime) :
    Bool :=
  if request.contains (ascii "if-match") then
    !anyTagMatches http request.headers (ascii "if-match") etag .strong
  else
    match request.dateField parseHttpDate (ascii "if-unmodified-since"), modified with
    | some since, some modified => decide (since < epochSeconds modified)
    | _, _ => false

def cacheGuard (request : FileRequest http) (etag : Bytes) (modified : Option SystemTime) :
    Precondition :=
  if request.contains (ascii "if-none-match") then
    if anyTagMatches http request.headers (ascii "if-none-match") etag .weak then
      if request.isRetrieval then .notModified else .failed
    else .proceed
  else if request.isRetrieval then
    match request.dateField parseHttpDate (ascii "if-modified-since"), modified with
    | some since, some modified => if epochSeconds modified ≤ since then .notModified else .proceed
    | _, _ => .proceed
  else .proceed

def evaluate (request : FileRequest http) (etag : Bytes) (modified : Option SystemTime) :
    Precondition :=
  if request.changeGuardFails parseHttpDate etag modified then .failed
  else request.cacheGuard parseHttpDate etag modified

end FileRequest

end Pingclair
