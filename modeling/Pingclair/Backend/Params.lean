import Pingclair.Lib.ByteText

/-!
# The parameters of a FastCGI request

Names and values are sent in pairs, with their sizes in front. A responder decodes each record on
its own, so no pair is cut: a record is written when the next pair does not fit.
-/

namespace Pingclair.FastCgi

open ByteText List

def maxRecordContent : Nat := 65500

inductive FastCgiError where
  | protocol (message : Bytes)
  | paramsTooLarge

def parameterSize (nameLen valueLen : Nat) : Nat :=
  nameLen + valueLen + ((if 127 < nameLen then 4 else 1) + if 127 < valueLen then 4 else 1)

/-- One byte, or the four bytes of a number whose highest bit is set. -/
def encodeSize (size : Nat) : Bytes :=
  if 127 < size then
    [.ofNat (size / 0x1000000) ||| 0x80, .ofNat (size / 0x10000), .ofNat (size / 0x100),
      .ofNat size]
  else [.ofNat size]

abbrev Pair := Bytes × Bytes

def encodePair (pair : Pair) : Bytes :=
  encodeSize pair.1.length ++ encodeSize pair.2.length ++ pair.1 ++ pair.2

section Send

variable (requestId : UInt16)

def frame (content : Bytes) : Bytes :=
  let paddingLength := (8 - content.length % 8) % 8
  [1, 4, .ofNat (requestId.toNat / 0x100), .ofNat requestId.toNat, .ofNat (content.length / 0x100),
    .ofNat content.length, .ofNat paddingLength, 0] ++ content ++ replicate paddingLength 0

/-- Writes a record behind what is on the stream. An error comes with what is there then. -/
def writeRecord (content stream : Bytes) : Except (FastCgiError × Bytes) Bytes :=
  if maxRecordContent < content.length then
    .error (.protocol (ascii "record content exceeds the 65500-byte ceiling"), stream)
  else .ok (stream ++ frame requestId content)

def addParam (state : Bytes × Bytes) (pair : Pair) :
    Except (FastCgiError × Bytes) (Bytes × Bytes) :=
  if maxRecordContent < state.2.length + parameterSize pair.1.length pair.2.length then
    (writeRecord requestId state.2 state.1).map fun stream => (stream, encodePair pair)
  else .ok (state.1, state.2 ++ encodePair pair)

def writeRest (state : Bytes × Bytes) : Except (FastCgiError × Bytes) Bytes :=
  if state.2 = [] then .ok state.1 else writeRecord requestId state.2 state.1

def sendParams (params : List Pair) (stream : Bytes) : Except (FastCgiError × Bytes) Bytes :=
  if params.any fun pair => maxRecordContent < parameterSize pair.1.length pair.2.length then
    .error (.paramsTooLarge, stream)
  else
    ((params.foldlM (addParam requestId) (stream, [])).bind (writeRest requestId)).bind
      (writeRecord requestId [])

/-- The content of the record at the front of a stream, and what follows its padding. -/
def readRecord : Bytes → Option (Bytes × Bytes)
  | 1 :: 4 :: id₁ :: id₀ :: size₁ :: size₀ :: padding :: _ :: rest =>
    let size := size₁.toNat * 0x100 + size₀.toNat
    if id₁.toNat * 0x100 + id₀.toNat = requestId.toNat ∧ size + padding.toNat ≤ rest.length then
      some (rest.take size, rest.drop (size + padding.toNat))
    else none
  | _ => none

/-- Reads a number of records, behind which nothing is left. -/
def readRecords : Nat → Bytes → Option (List Bytes)
  | 0, stream => if stream = [] then some [] else none
  | count + 1, stream =>
    (readRecord requestId stream).bind fun (content, rest) =>
      (readRecords count rest).map (content :: ·)

end Send

def decodeSize : Bytes → Option (Nat × Bytes)
  | [] => none
  | b :: rest =>
    if b < 0x80 then some (b.toNat, rest)
    else
      match rest with
      | b₁ :: b₂ :: b₃ :: rest => some ((((b.toNat - 0x80) * 0x100 + b₁.toNat) * 0x100 + b₂.toNat) *
          0x100 + b₃.toNat, rest)
      | _ => none

def decodePairsWithin (fuel : Nat) (s : Bytes) : Option (List Pair) :=
  if s = [] then some []
  else
    match fuel with
    | 0 => none
    | fuel + 1 => do
      let (nameLen, s) ← decodeSize s
      let (valueLen, s) ← decodeSize s
      if s.length < nameLen + valueLen then none
      else
        let pairs ← decodePairsWithin fuel (s.drop (nameLen + valueLen))
        return (s.take nameLen, (s.drop nameLen).take valueLen) :: pairs

def decodePairs (content : Bytes) : Option (List Pair) := decodePairsWithin content.length content

theorem length_encodePair (pair : Pair) :
    (encodePair pair).length = parameterSize pair.1.length pair.2.length := by
  have hsz (size : Nat) : (encodeSize size).length = if 127 < size then 4 else 1 := by
    rw [encodeSize]
    split <;> rfl
  simp only [encodePair, length_append, hsz, parameterSize]
  omega

theorem decodeSize_encodeSize {size : Nat} (h : size ≤ maxRecordContent) (rest : Bytes) :
    decodeSize (encodeSize size ++ rest) = some (size, rest) := by
  rw [maxRecordContent] at h
  rw [encodeSize]
  split
  · have htop : size / 0x1000000 = 0 := by omega
    simp only [htop, cons_append, nil_append, decodeSize, UInt8.toNat_ofNat']
    refine congrArg some (Prod.ext ?_ rfl)
    show ((0 * 256 + size / 65536 % 256) * 256 + _) * 256 + _ = size
    omega
  · have hsz : UInt8.ofNat size < 0x80 := by
      show size % 256 < 128
      omega
    rw [singleton_append, decodeSize.eq_def]
    simp only [if_pos hsz, UInt8.toNat_ofNat']
    refine congrArg some (Prod.ext ?_ rfl)
    show size % 256 = size
    omega

def Fits (pair : Pair) : Prop := (encodePair pair).length ≤ maxRecordContent

section Pairs

def encodePairs (pairs : List Pair) : Bytes := pairs.flatMap encodePair

variable {pairs : List Pair}

theorem decodePairsWithin_encodePairs (h : ∀ pair ∈ pairs, Fits pair) {fuel : Nat}
    (hfuel : pairs.length ≤ fuel) : decodePairsWithin fuel (encodePairs pairs) = some pairs := by
  induction pairs generalizing fuel with
  | nil => rw [decodePairsWithin.eq_def]; rfl
  | cons pair pairs ih =>
    obtain ⟨fuel, rfl⟩ := Nat.exists_eq_add_of_le' (Nat.zero_lt_of_lt hfuel)
    have hft : parameterSize pair.1.length pair.2.length ≤ maxRecordContent :=
      (length_encodePair pair).symm.trans_le (h pair mem_cons_self)
    rw [parameterSize] at hft
    have hn : pair.1.length ≤ maxRecordContent := by omega
    have hv : pair.2.length ≤ maxRecordContent := by omega
    have hcn : encodePairs (pair :: pairs) = encodeSize pair.1.length ++
        (encodeSize pair.2.length ++ (pair.1 ++ (pair.2 ++ encodePairs pairs))) := by
      simp [encodePairs, encodePair]
    have hs := decodeSize_encodeSize hn
      (encodeSize pair.2.length ++ (pair.1 ++ (pair.2 ++ encodePairs pairs)))
    rw [← hcn] at hs
    have hne : encodePairs (pair :: pairs) ≠ [] := by
      intro hni
      rw [hni] at hs
      cases hs
    have hrest := ih (forall_mem_cons.mp h).2 (Nat.le_of_succ_le_succ hfuel)
    rw [decodePairsWithin, if_neg hne, hs]
    simp [decodeSize_encodeSize hv, hrest]

theorem length_le_length_encodePairs (pairs : List Pair) :
    pairs.length ≤ (encodePairs pairs).length := by
  induction pairs with
  | nil => exact Nat.zero_le _
  | cons pair pairs ih =>
    have hp : 0 < parameterSize pair.1.length pair.2.length := by
      rw [parameterSize]
      split <;> omega
    rw [encodePairs, flatMap_cons, length_append, length_encodePair, ← encodePairs, length_cons]
    omega

theorem encodePairs_ne_nil (h : pairs ≠ []) : encodePairs pairs ≠ [] := by
  intro hni
  have hlen := length_le_length_encodePairs pairs
  rw [hni, length_nil, Nat.le_zero, length_eq_zero_iff] at hlen
  exact h hlen

end Pairs

variable (requestId : UInt16)

theorem readRecord_frame {content : Bytes} (h : content.length ≤ maxRecordContent) (rest : Bytes) :
    readRecord requestId (frame requestId content ++ rest) = some (content, rest) := by
  have hsplit {n : Nat} (hn : n < 2 ^ 16) : n / 256 % 256 * 256 + n % 256 = n := by omega
  have hsize := hsplit (n := content.length) (by rw [maxRecordContent] at h; omega)
  have hnumber := hsplit requestId.toNat_lt
  have hpadding : (8 - content.length % 8) % 8 % 256 = (8 - content.length % 8) % 8 := by omega
  simp [frame, readRecord, hsize, hnumber, hpadding]

theorem readRecords_flatMap {records : List Bytes}
    (h : ∀ record ∈ records, record.length ≤ maxRecordContent) :
    readRecords requestId records.length (records.flatMap (frame requestId)) = some records := by
  induction records with
  | nil => rfl
  | cons record records ih =>
    rw [forall_mem_cons] at h
    rw [flatMap_cons, length_cons, readRecords, readRecord_frame requestId h.1]
    exact congrArg (Option.map (record :: ·)) (ih h.2)

/-- The loop and what follows it write whole groups of pairs. -/
theorem writeRest_foldlM {params group : List Pair} (stream : Bytes)
    (hgr : (encodePairs group).length ≤ maxRecordContent) (h : ∀ pair ∈ params, Fits pair) :
    ∃ groups : List (List Pair),
      (params.foldlM (addParam requestId) (stream, encodePairs group)).bind (writeRest requestId) =
        .ok (stream ++ (groups.map encodePairs).flatMap (frame requestId)) ∧
      (∀ g ∈ groups, g ≠ [] ∧ (encodePairs g).length ≤ maxRecordContent) ∧
      groups.flatten = group ++ params := by
  induction params generalizing stream group with
  | nil =>
    by_cases hni : group = []
    · subst hni
      exact ⟨[], congrArg Except.ok (append_nil stream).symm, by simp⟩
    · refine ⟨[group], ?_, by simp [hni, hgr]⟩
      show writeRest requestId _ = _
      rw [writeRest, if_neg (encodePairs_ne_nil hni), writeRecord, if_neg (Nat.not_lt.mpr hgr)]
      simp
  | cons pair params ih =>
    have hcat : encodePairs (group ++ [pair]) = encodePairs group ++ encodePairs [pair] :=
      flatMap_append
    have hsing : encodePairs [pair] = encodePair pair := append_nil _
    have hpa : (encodePairs [pair]).length ≤ maxRecordContent := hsing ▸ h pair mem_cons_self
    have hparams : ∀ pair ∈ params, Fits pair := fun o ho =>
      h o (mem_cons_of_mem _ ho)
    rw [foldlM_cons, addParam, ← length_encodePair, ← hsing, ← length_append, ← hcat]
    split
    · next hfull =>
      have hne : group ≠ [] := by
        rintro rfl
        exact absurd hpa (Nat.not_le.mpr hfull)
      rw [writeRecord, if_neg (Nat.not_lt.mpr hgr)]
      obtain ⟨groups, hrun, hgrs, ha⟩ :=
        ih (stream ++ frame requestId (encodePairs group)) hpa hparams
      refine ⟨group :: groups, ?_, forall_mem_cons.mpr ⟨⟨hne, hgr⟩, hgrs⟩, ?_⟩
      · exact hrun.trans (by rw [map_cons, flatMap_cons, append_assoc])
      · rw [flatten_cons, ha]
        rfl
    · next hrm =>
      obtain ⟨groups, hrun, hgrs, ha⟩ := ih stream (Nat.not_lt.mp hrm) hparams
      exact ⟨groups, hrun, hgrs, ha.trans (append_assoc ..)⟩

/-- Parameters are refused before anything is written, exactly when one does not fit in a record, or
are written in records that hold whole pairs, all of them in order, and an empty record behind. -/
theorem sendParams_exact (params : List Pair) (stream : Bytes) :
    (∃ pair ∈ params, ¬ Fits pair) ∧
        sendParams requestId params stream = .error (.paramsTooLarge, stream) ∨
      (∀ pair ∈ params, Fits pair) ∧ ∃ (records : List Bytes) (groups : List (List Pair)),
        sendParams requestId params stream =
          .ok (stream ++ (records ++ [[]]).flatMap (frame requestId)) ∧
        readRecords requestId (records ++ [[]]).length
          ((records ++ [[]]).flatMap (frame requestId)) = some (records ++ [[]]) ∧
        (∀ record ∈ records, record ≠ [] ∧ record.length ≤ maxRecordContent) ∧
        records.map decodePairs = groups.map some ∧ groups.flatten = params := by
  have hany : (params.any fun pair =>
      maxRecordContent < parameterSize pair.1.length pair.2.length) = true ↔
        ∃ pair ∈ params, ¬ Fits pair := by
    simp [Fits, length_encodePair]
  rw [sendParams]
  split
  · next hlarge => exact .inl ⟨hany.mp hlarge, rfl⟩
  · next hsma =>
    have hft : ∀ pair ∈ params, Fits pair := by simpa [hany] using hsma
    have hst : (encodePairs []).length ≤ maxRecordContent := Nat.zero_le _
    obtain ⟨groups, hrun, hgrs, rfl⟩ := writeRest_foldlM requestId stream hst hft
    have hrecords : ∀ record ∈ groups.map encodePairs,
        record ≠ [] ∧ record.length ≤ maxRecordContent := by
      intro record hrcd
      obtain ⟨group, hgr, rfl⟩ := mem_map.mp hrcd
      exact ⟨encodePairs_ne_nil (hgrs group hgr).1, (hgrs group hgr).2⟩
    refine .inr ⟨hft, groups.map encodePairs, groups, ?_, ?_, hrecords, ?_, rfl⟩
    · rw [show (stream, []) = (stream, encodePairs []) from rfl, hrun]
      simp [Except.bind, writeRecord]
    · refine readRecords_flatMap requestId fun record hrcd => ?_
      rcases mem_append.mp hrcd with hrcd | hrcd
      · exact (hrecords record hrcd).2
      · rw [mem_singleton.mp hrcd]
        exact Nat.zero_le _
    · rw [map_map]
      refine map_congr_left fun group hgr => ?_
      refine decodePairsWithin_encodePairs (fun pair hpa => ?_) (length_le_length_encodePairs group)
      exact hft pair (mem_flatten_of_mem hgr hpa)

end Pingclair.FastCgi
