import Mathlib.Order.Lattice
import Mathlib.Order.Nat
import Pingclair.Http.HeaderMap
import Pingclair.Lib.Utf8

/-!
# Content codings

What an `Accept-Encoding` field says of a coding, the order in which the codings a server offers
are tried, and the site's policy for which responses may be encoded at all.

A quality value is read by the number parser of the language.
-/

namespace Pingclair

open ByteText AsciiCase

structure QualityLib where
  Quality : Type
  [order : LinearOrder Quality]
  zero : Quality
  one : Quality
  zero_le : ∀ q, zero ≤ q
  /-- A number, when the text is one; numbers outside the range are moved to its ends. -/
  parse : Bytes → Option Quality

attribute [instance] QualityLib.order

def wholeQualities : QualityLib where
  Quality := Nat
  zero := 0
  one := 1
  zero_le := Nat.zero_le
  parse s := if s = ascii "0" then some 0 else if s = ascii "1" then some 1 else none

inductive Encoding where
  | gzip
  | zstd

namespace Encoding

def token : Encoding → Bytes
  | gzip => ascii "gzip"
  | zstd => ascii "zstd"

abbrev comma : UInt8 := 0x2C

abbrev semicolon : UInt8 := 0x3B

abbrev equals : UInt8 := 0x3D

section

variable (quality : QualityLib)

structure AcceptedCoding where
  token : Bytes
  q : quality.Quality

def qualityText (param : Bytes) : Option Bytes :=
  match splitOnce equals param with
  | some (key, value) => if eqIgnoreCase (Utf8.trim key) (ascii "q") then some value else none
  | none => none

def entry (part : Bytes) : Option (AcceptedCoding quality) :=
  match part.splitOn semicolon with
  | [] => none
  | piece :: params =>
    let token := Utf8.trim piece
    if token = [] then none
    else
      -- a quality that is no number counts as none given
      let q := (params.findSome? qualityText).bind fun value => quality.parse (Utf8.trim value)
      some ⟨token, q.getD quality.one⟩

def entries (header : Bytes) : List (AcceptedCoding quality) :=
  (header.splitOn comma).filterMap (entry quality)

def canonicalCoding (s : Bytes) : Bytes :=
  let s := Utf8.trim s
  if 2 ≤ s.length ∧ eqIgnoreCase (s.take 2) (ascii "x-") ∧
      eqIgnoreCase (s.drop 2) (ascii "gzip") then s.drop 2
  else s

def sameCoding (token coding : Bytes) : Bool :=
  eqIgnoreCase (canonicalCoding token) (canonicalCoding coding)

/-- The quality of the first entry that names a coding; without one, the refusal of the first
wildcard. -/
def mentionedQuality (acceptEncoding coding : Bytes) : Option quality.Quality :=
  match (entries quality acceptEncoding).find? fun e => sameCoding e.token coding with
  | some e => some e.q
  | none =>
    (((entries quality acceptEncoding).find? fun e => e.token == ascii "*").map
      AcceptedCoding.q).filter (· = quality.zero)

inductive Identity where
  | implicit
  | rated (q : quality.Quality)
  | refused

def identityRating (acceptEncoding : Bytes) : Identity quality :=
  match mentionedQuality quality acceptEncoding (ascii "identity") with
  | none => .implicit
  | some q => if quality.zero < q then .rated q else .refused

/-- The quality an offered coding is ranked by, when it is acceptable at all. -/
def rankedQuality (identity : Identity quality) : Option quality.Quality → Option quality.Quality
  | some q =>
    match identity with
    | .rated floor => if floor ≤ q then some q else none
    | .implicit | .refused => if quality.zero < q then some q else none
  | none =>
    match identity with
    | .refused => some quality.zero
    | .implicit | .rated _ => none

variable {T : Type} (acceptEncoding : Bytes) (offered : List T) (token : T → Bytes)

def rankStep (yielded : List Nat) (best : Option (Nat × quality.Quality)) (item : T × Nat) :
    Option (Nat × quality.Quality) :=
  if item.2 ∈ yielded then best
  else
    match rankedQuality quality (identityRating quality acceptEncoding)
        (mentionedQuality quality acceptEncoding (token item.1)) with
    | none => best
    | some q => if best.all fun b => decide (b.2 < q) then some (item.2, q) else best

/-- The position yielded next. Only the first 64 offered codings are looked at. -/
def rankedNext (yielded : List Nat) : Option Nat :=
  (((offered.take 64).zipIdx).foldl (rankStep quality acceptEncoding token yielded) none).map
    Prod.fst

/-- The codings yielded after those in `yielded`. Every turn yields a new one of at most 64. -/
def rankedFrom : (turns : Nat) → (yielded : List Nat) → List T
  | 0, _ => []
  | turns + 1, yielded =>
    match rankedNext quality acceptEncoding offered token yielded with
    | none => []
    | some rank => (offered[rank]?).toList ++ rankedFrom turns (rank :: yielded)

def ranked : List T := rankedFrom quality acceptEncoding offered token 64 []

def negotiateBy : Option T :=
  (rankedNext quality acceptEncoding offered token []).bind fun rank => offered[rank]?

end

def forbidsTransform (http : HttpLib) (headers : http.HeaderMap) : Bool :=
  (((http.getAll headers (ascii "cache-control")).filterMap http.toStr).flatMap
    (·.splitOn comma)).any fun token => eqIgnoreCase (trim token) (ascii "no-transform")

inductive HeaderPattern where
  | any
  | exact (pattern : Bytes)
  | beginning (pattern : Bytes)
  | ending (pattern : Bytes)
  | containing (pattern : Bytes)

def HeaderPattern.matches : HeaderPattern → Bytes → Bool
  | any, _ => true
  | exact pattern, value => value == pattern
  | beginning pattern, value => pattern.isPrefixOf value
  | ending pattern, value => pattern.isSuffixOf value
  | containing pattern, value => value.tails.any fun tail => pattern.isPrefixOf tail

inductive MimePattern where
  | any
  | exact (pattern : Bytes)
  | wildcard (start finish : Bytes)

def MimePattern.matches : MimePattern → Bytes → Bool
  | any, _ => true
  | exact pattern, mime => eqIgnoreCase mime pattern
  | wildcard start finish, mime =>
    start.length ≤ mime.length && eqIgnoreCase (mime.take start.length) start &&
      eqIgnoreCase (mime.drop (mime.length - finish.length)) finish

structure HeaderRule where
  name : Bytes
  absent : Bool
  patterns : List HeaderPattern

structure EncodePolicy where
  explicit : Bool
  statuses : List Nat
  headers : List HeaderRule
  mime : List MimePattern

def EncodePolicy.matches (policy : EncodePolicy) (status : Nat)
    (header : Bytes → List HeaderPattern → Bool) : Bool :=
  (policy.statuses = [] || status ∈ policy.statuses || status / 100 ∈ policy.statuses) &&
    policy.headers.all fun rule =>
      if rule.absent then !header rule.name [] else header rule.name rule.patterns

def EncodePolicy.allowsContentType (policy : EncodePolicy) (contentType : Bytes) : Bool :=
  let mime := trim ((contentType.splitOn semicolon).headD [])
  mime != [] && policy.mime.any fun pattern => pattern.matches mime

end Encoding

end Pingclair
