import Pingclair.Lib.Durations
import Pingclair.Lib.Numerals
import Pingclair.Lib.Utf8

/-!
# Validators of static files

One strong entity tag for every representation of a file, the tag a build left beside the file,
and the two decisions a `Range` depends on: whether `If-Range` lets it apply, and what it asks
for.
-/

namespace Pingclair

open ByteText Numerals

abbrev SystemTime := Int

abbrev tagQuote : UInt8 := 0x22

abbrev hyphen : UInt8 := 0x2D

def weakMark : Bytes := ascii "W/"

def isEtagc (b : UInt8) : Bool := b == 0x21 || 0x23 ≤ b && b ≤ 0x7E || 0x80 ≤ b

def isEntityTag (tag : Bytes) : Bool :=
  let unmarked := (tag.dropPrefix? weakMark).getD tag
  match (unmarked.dropPrefix? [tagQuote]).bind (·.dropSuffix? [tagQuote]) with
  | some inner => inner.all isEtagc
  | none => false

structure SidecarTag where
  tag : Bytes
  isTag : isEntityTag tag = true

def SidecarTag.parse (tag : Bytes) : Option SidecarTag :=
  if h : isEntityTag tag = true then some ⟨tag, h⟩ else none

structure EntityTags where
  identity : Bytes
  br : Bytes
  zstd : Bytes
  gzip : Bytes
  sidecarBr : Bytes
  sidecarZstd : Bytes
  sidecarGzip : Bytes

namespace EntityTags

def coded (identity coding : Bytes) : Bytes :=
  (identity.dropSuffix? [tagQuote]).getD identity ++ ascii "-" ++ coding ++ [tagQuote]

def derive (size mtimeNs : Nat) (sidecar : Option SidecarTag) (gzipLevel : Nat) : EntityTags :=
  let identity := match sidecar with
    | some sidecar => sidecar.tag
    | none => [tagQuote] ++ numeral 36 mtimeNs ++ ascii "-" ++ numeral 36 size ++ [tagQuote]
  { identity
    br := coded identity (ascii "br")
    zstd := coded identity (ascii "zstd")
    gzip := coded identity (ascii "gzip-" ++ decimal gzipLevel)
    sidecarBr := coded identity (ascii "sidecar-br")
    sidecarZstd := coded identity (ascii "sidecar-zstd")
    sidecarGzip := coded identity (ascii "sidecar-gzip") }

/-- The tag of the body sent with a coding; `none` is the file as it is on disk. -/
def forCoding (tags : EntityTags) : Option Bytes → Bytes
  | none => tags.identity
  | some coding =>
    if coding = ascii "br" then tags.br
    else if coding = ascii "zstd" then tags.zstd
    else if coding = ascii "gzip" then tags.gzip
    else tags.identity

def forSidecar (tags : EntityTags) (coding : Bytes) : Bytes :=
  if coding = ascii "br" then tags.sidecarBr
  else if coding = ascii "zstd" then tags.sidecarZstd
  else if coding = ascii "gzip" then tags.sidecarGzip
  else tags.identity

end EntityTags

inductive Coding where
  | br
  | zstd
  | gzip
  deriving DecidableEq

def Coding.text : Coding → Bytes
  | .br => ascii "br"
  | .zstd => ascii "zstd"
  | .gzip => ascii "gzip"

inductive Variant where
  | identity
  | live (coding : Coding)
  | sidecar (coding : Coding)
  deriving DecidableEq

namespace Variant

def tag (tags : EntityTags) : Variant → Bytes
  | identity => tags.forCoding none
  | live coding => tags.forCoding (some coding.text)
  | sidecar coding => tags.forSidecar coding.text

/-- What a tag says, behind the time and the size, of its variant. -/
def words (gzipLevel : Nat) : Variant → List Bytes
  | identity => []
  | live .gzip => [ascii "gzip", decimal gzipLevel]
  | live coding => [coding.text]
  | sidecar coding => [ascii "sidecar", coding.text]

theorem tag_derive (size mtimeNs gzipLevel : Nat) (variant : Variant) :
    variant.tag (EntityTags.derive size mtimeNs none gzipLevel) =
      tagQuote :: (numeral 36 mtimeNs ++
        rooted hyphen (numeral 36 size :: variant.words gzipLevel)) ++ [tagQuote] := by
  have hcoded (body coding : Bytes) : EntityTags.coded (tagQuote :: body ++ [tagQuote]) coding =
      tagQuote :: (body ++ hyphen :: coding) ++ [tagQuote] := by
    rw [EntityTags.coded, dropSuffix?_eq_some.mpr rfl]
    simp [show ascii "-" = [hyphen] by decide]
  have hidt : [tagQuote] ++ numeral 36 mtimeNs ++ ascii "-" ++ numeral 36 size ++ [tagQuote] =
      tagQuote :: (numeral 36 mtimeNs ++ hyphen :: numeral 36 size) ++ [tagQuote] := by
    simp [show ascii "-" = [hyphen] by decide]
  have hns : ascii "zstd" ≠ ascii "br" ∧ ascii "gzip" ≠ ascii "br" ∧
      ascii "gzip" ≠ ascii "zstd" := by decide
  have hwords : ascii "gzip-" = ascii "gzip" ++ [hyphen] ∧
      ascii "sidecar-br" = ascii "sidecar" ++ hyphen :: ascii "br" ∧
      ascii "sidecar-zstd" = ascii "sidecar" ++ hyphen :: ascii "zstd" ∧
      ascii "sidecar-gzip" = ascii "sidecar" ++ hyphen :: ascii "gzip" := by decide
  rcases variant with _ | (_ | _ | _) | (_ | _ | _) <;>
    simp only [tag, EntityTags.forCoding, EntityTags.forSidecar, EntityTags.derive, Coding.text,
      hidt, hcoded, hns, hwords, if_true, if_false] <;>
    simp [words, Coding.text]

theorem hyphen_notMem_numeral {base : Nat} (hbase : 1 < base) (hdg : base ≤ 36) (n : Nat) :
    hyphen ∉ numeral base n := by
  intro h
  obtain ⟨d, hd, hhyphen⟩ := exists_digit_of_mem_numeral hbase h
  have ha : ∀ d < 36, digit d ≠ hyphen := by decide
  exact ha d (hd.trans_le hdg) hhyphen

theorem hyphen_notMem_words {gzipLevel : Nat} (variant : Variant) :
    ∀ word ∈ variant.words gzipLevel, hyphen ∉ word := by
  have htexts : hyphen ∉ ascii "br" ∧ hyphen ∉ ascii "zstd" ∧ hyphen ∉ ascii "gzip" ∧
      hyphen ∉ ascii "sidecar" := by decide
  have hlevel : hyphen ∉ decimal gzipLevel := hyphen_notMem_numeral (by simp) (by simp) gzipLevel
  rcases variant with _ | (_ | _ | _) | (_ | _ | _) <;> simp [words, Coding.text, htexts, hlevel]

theorem words_inj {level level' : Nat} {variant variant' : Variant}
    (h : variant.words level = variant'.words level') :
    variant = variant' ∧ (variant = live .gzip → level = level') := by
  have htexts : ascii "zstd" ≠ ascii "br" ∧ ascii "gzip" ≠ ascii "br" ∧
      ascii "gzip" ≠ ascii "zstd" ∧ ascii "sidecar" ≠ ascii "gzip" := by decide
  have hlevel : decimal level = decimal level' → level = level' :=
    fun h => numeral_injective (by omega) (by omega) h
  rcases variant with _ | (_ | _ | _) | (_ | _ | _) <;>
    rcases variant' with _ | (_ | _ | _) | (_ | _ | _) <;>
    simp_all [words, Coding.text]

end Variant

/-- Two tags are the same only for the same time, size and representation; the level of the
compression counts where there is one. -/
theorem tag_derive_eq_iff {size mtimeNs level size' mtimeNs' level' : Nat}
    {variant variant' : Variant} :
    variant.tag (EntityTags.derive size mtimeNs none level) =
        variant'.tag (EntityTags.derive size' mtimeNs' none level') ↔
      mtimeNs = mtimeNs' ∧ size = size' ∧ variant = variant' ∧
        (variant = .live .gzip → level = level') := by
  constructor
  · intro h
    have hsp (size mtimeNs level : Nat) (variant : Variant) :
        (numeral 36 mtimeNs ++ rooted hyphen (numeral 36 size :: variant.words level)).splitOn
          hyphen = numeral 36 mtimeNs :: numeral 36 size :: variant.words level := by
      apply splitOn_append_rooted (Variant.hyphen_notMem_numeral (by omega) (by omega) _)
      rw [List.forall_mem_cons]
      exact ⟨Variant.hyphen_notMem_numeral (by omega) (by omega) _, variant.hyphen_notMem_words⟩
    rw [Variant.tag_derive, Variant.tag_derive, List.append_left_inj, List.cons_inj_right] at h
    replace h := congrArg (List.splitOn hyphen) h
    rw [hsp, hsp, List.cons.injEq, List.cons.injEq] at h
    obtain ⟨hmtime, hsize, hwords⟩ := h
    have hinjective := numeral_injective (show 1 < 36 by omega) (le_refl 36)
    exact ⟨hinjective hmtime, hinjective hsize, Variant.words_inj hwords⟩
  · rintro ⟨rfl, rfl, rfl, hlevel⟩
    rcases variant with _ | (_ | _ | _) | (_ | _ | _) <;> first | rfl | rw [hlevel rfl]

example : (EntityTags.derive 0x1F 0x17A none 5).forCoding (some (ascii "gzip")) =
    ascii "\"ai-v-gzip-5\"" := by decide

def ifRangeHolds (ifRange : Option Bytes) (etag : Bytes) (lastModified : Option Bytes)
    (modified : Option SystemTime) (now : SystemTime) : Bool :=
  match ifRange.map trim with
  | none => true
  | some value =>
    if weakMark.isPrefixOf value then false
    else if [tagQuote].isPrefixOf value then !weakMark.isPrefixOf etag && etag == value
    else
      match lastModified, modified with
      | some lastModified, some modified =>
        -- a date is strong once the second it names is over
        lastModified == value && decide (nanosPerSecond ≤ now - modified)
      | _, _ => false

inductive RangeDecision where
  | satisfied (start finish : Nat)
  | unsatisfiable
  | ignored
  deriving DecidableEq

def parseRangeSpec (spec : Bytes) (fileSize : Nat) : RangeDecision :=
  let last := fileSize - 1
  if (0x2C : UInt8) ∈ spec then .ignored
  else
    match splitOnce 0x2D spec with
    | none => .ignored
    | some (startSpec, endSpec) =>
      let startSpec := trim startSpec
      let endSpec := trim endSpec
      if startSpec = [] then
        match parseUnsigned u64Max endSpec with
        | none => .ignored
        | some wanted => if wanted = 0 then .ignored else .satisfied (fileSize - wanted) last
      else
        match parseUnsigned u64Max startSpec,
            if endSpec = [] then some last else parseUnsigned u64Max endSpec with
        | some start, some finish =>
          if last < start then .unsatisfiable
          else if finish < start then .ignored
          else .satisfied start (min finish last)
        | _, _ => .ignored

def parseRange (header : Bytes) (fileSize : Nat) : RangeDecision :=
  match header.dropPrefix? (ascii "bytes=") with
  | none => .ignored
  | some spec => if fileSize = 0 then .ignored else parseRangeSpec (trim spec) fileSize

example : parseRange (ascii "bytes=-5") 20 = .satisfied 15 19 := by decide

example : parseRange (ascii "bytes=20-") 20 = .unsatisfiable := by decide

end Pingclair
