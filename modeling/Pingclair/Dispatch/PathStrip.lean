import Pingclair.Dispatch.Walk
import Pingclair.Lib.Utf8Ascii

/-!
# What a path group strips

A group of handlers for a path prefix hands them the request without the prefix. A route chose the
group by a pattern that was compared with the decoded path, but the prefix is cut from the path as
it was sent. Where the client spells the prefix with escapes, nothing is cut.
-/

namespace Pingclair

open ByteText AsciiCase Percent List Utf8

def handedOver (pre : Utf8.Str) (target : Target) : Utf8.Str :=
  if (stripPathPrefix target.path pre).isSome then rewriteUri target.text (some pre) none none none
  else target.text

/-- It is what the walk hands on, where the path is that of the target. -/
theorem handOver_eq {L A R H F Vars X : Type} (d : Dispatcher L A R H F Vars X) (pre : Utf8.Str)
    (c : Context A R H F Vars X) :
    d.handOver pre c.uri.path c = (d.applyRewrite (handedOver pre c.uri) c).map fun c' =>
      (Target.pathPart (handedOver pre c.uri), c') :=
  rfl

namespace Target

theorem splitOnce_text (target : Target) :
    target.text.splitOnce question question_lt = target.query.map fun q => (target.path, q) := by
  have hbs := target.text.bytes_splitOnce question_lt
  rw [bytes_text] at hbs
  cases hq : target.query with
  | none =>
    rw [hq, Option.map_none, Option.getD_none, append_nil,
      splitOnce_of_not_mem target.path_no_question, Option.map_eq_none_iff] at hbs
    rw [hbs, Option.map_none]
  | some q =>
    rw [hq, Option.map_some, Option.getD_some, splitOnce_append target.path_no_question,
      Option.map_eq_some_iff] at hbs
    obtain ⟨parts, hpts, heq⟩ := hbs
    obtain ⟨hp, hrest⟩ := Prod.mk.inj heq
    rw [hpts]
    exact congrArg some (Prod.ext (Str.ext hp) (Str.ext hrest))

theorem read_text (target : Target) : read target.text = target := by
  have hp := pathPart_text target
  have hq : (target.text.splitOnce question question_lt).map Prod.snd = target.query := by
    rw [splitOnce_text, Option.map_map]
    exact Option.map_id'
  cases target with
  | mk p query hqm =>
    simp only [read, mk.injEq]
    exact ⟨hp, hq⟩

end Target

theorem stripPathPrefix_eq (path pre : Str) :
    (stripPathPrefix path pre).map Str.bytes =
      if startsWith path.bytes pre.bytes then some (path.bytes.drop pre.bytes.length)
      else none := by
  rw [stripPathPrefix, startsWith]
  by_cases h : pre.bytes.length ≤ path.bytes.length ∧
      eqIgnoreCase (path.bytes.take pre.bytes.length) pre.bytes = true
  · have hlead : valid (path.bytes.take pre.bytes.length) = true := by
      rw [← valid_fold, eqIgnoreCase_iff.mp h.2, valid_fold]
      exact pre.isValid
    have hrest : valid (path.bytes.drop pre.bytes.length) = true := by
      rw [← valid_append hlead, take_append_drop]
      exact path.isValid
    rw [if_pos h, if_pos (by simpa using h), Str.get?, dif_pos hrest, Option.map_some]
  · rw [if_neg h, if_neg (by simpa using h), Option.map_none]

def rootBytes (path : Bytes) : Bytes := if path.head? = some slash then path else slash :: path

theorem bytes_rootPath (path : Str) : (rootPath path).bytes = rootBytes path.bytes := by
  rw [rootPath, rootBytes]
  split <;> rfl

theorem head_rootBytes (path : Bytes) : (rootBytes path).head? = some slash := by
  rw [rootBytes]
  split
  · assumption
  · rfl

variable {path s t lead pre : Bytes} {target : Target}

theorem rootBytes_of_head (h : path.head? = some slash) : rootBytes path = path :=
  if_pos h

theorem rootBytes_of_head_ne (h : path.head? ≠ some slash) : rootBytes path = slash :: path :=
  if_neg h

theorem mem_rootBytes {b : UInt8} (h : b ∈ rootBytes path) : b = slash ∨ b ∈ path := by
  rw [rootBytes] at h
  split at h
  · exact .inr h
  · exact mem_cons.mp h

theorem rootPath_rootPath (path : Str) : rootPath (rootPath path) = rootPath path := by
  have hhd : (rootPath path).bytes.head? = some slash := by
    rw [bytes_rootPath]
    exact head_rootBytes path.bytes
  rw [rootPath, if_pos hhd]

theorem question_not_mem_rootPath {path : Str} (h : question ∉ path.bytes) :
    question ∉ (rootPath path).bytes := by
  rw [bytes_rootPath]
  intro hmem
  exact (mem_rootBytes hmem).elim (by decide) h

/-- A target that lost a prefix. A query without any text is lost as well. -/
def Target.stripped (target : Target) (rest : Utf8.Str) (h : question ∉ rest.bytes) : Target where
  path := rootPath rest
  query := target.query.filter fun query => !query.bytes.isEmpty
  path_no_question := question_not_mem_rootPath h

theorem rewriteUri_text {pre rest : Str} (h : stripPathPrefix target.path pre = some rest)
    (hqm : question ∉ rest.bytes) :
    rewriteUri target.text (some pre) none none none = (target.stripped rest hqm).text := by
  have hno : question ∉ (rootPath rest).bytes := question_not_mem_rootPath hqm
  rw [rewriteUri, Target.splitOnce_text, Target.text, Target.text, Target.stripped]
  cases hq : target.query with
  | none => simp [h, rootPath_rootPath]
  | some q =>
    by_cases hem : q.bytes = []
    · simp [h, rootPath_rootPath, hem, Option.filter]
    · simp [h, rootPath_rootPath, hem, hno, Option.filter]

/-- A text with its escapes decoded, repaired where that leaves no UTF-8. -/
def decoded (s : Bytes) : Bytes := Utf8.lossy (percentEscape.decode s)

theorem decodeForMatching_eq_decoded (hv : valid s = true) (hqm : question ∉ s) :
    decodeForMatching s = decoded s := by
  rw [decodeForMatching_path hqm]
  split
  · next h =>
    have hdec : valid (percentEscape.decode s) = true := by
      rcases h with hpct | hdec
      · rwa [decode_of_not_mem hpct]
      · exact hdec
    exact (lossy_of_valid hdec).symm
  · rfl

theorem decoded_append_slash (s t : Bytes) :
    decoded (s ++ slash :: t) = decoded s ++ slash :: decoded t := by
  have hcuts : percentEscape.Cuts slash := percentEscape_cuts (by decide) (by decide)
  rw [decoded, Escape.decode_append_cons hcuts, lossy_append_ascii (by decide)]
  rfl

theorem decoded_nil : decoded [] = [] := by
  rw [decoded, Escape.decode_nil]
  rfl

theorem decoded_slash_cons (t : Bytes) : decoded (slash :: t) = slash :: decoded t := by
  rw [← nil_append (slash :: t), decoded_append_slash, decoded_nil, nil_append]

theorem head_decoded_of_head (h : s.head? = some slash) : (decoded s).head? = some slash := by
  obtain ⟨t, rfl⟩ := List.head?_eq_some_iff.mp h
  rw [decoded_slash_cons, List.head?_cons]

theorem count_slash_le_decoded (s : Bytes) : s.count slash ≤ (decoded s).count slash := by
  have hcuts : percentEscape.Cuts slash := percentEscape_cuts (by decide) (by decide)
  have hlossy : (decoded s).count slash = (percentEscape.decode s).count slash :=
    countP_lossy (by simp only [beq_iff_eq, forall_eq]; decide) _
  rw [hlossy]
  exact Escape.count_le_count_decode hcuts s

def isAscii (b : UInt8) : Bool := decide (b < 0x80)

theorem isAscii_lower (b : UInt8) : isAscii (lower b) = isAscii b := by
  rw [isAscii, isAscii, decide_eq_decide]
  constructor
  · intro h
    by_contra hb
    rw [lower_of_le (UInt8.not_lt.mp hb)] at h
    exact hb h
  · exact lower_lt

/-- An escape stands for one byte at most, so decoding a text in two parts loses no ASCII. -/
theorem countP_isAscii_decoded_append_le (s t : Bytes) :
    (decoded (s ++ t)).countP isAscii ≤ s.countP isAscii + (decoded t).countP isAscii := by
  have hlossy (u : Bytes) : (decoded u).countP isAscii = (percentEscape.decode u).countP isAscii :=
    countP_lossy (fun b => of_decide_eq_true) _
  rw [hlossy, hlossy]
  exact Escape.countP_decode_append_le (by decide) s t

theorem countP_isAscii_of_fold_eq (h : fold s = fold t) : s.countP isAscii = t.countP isAscii := by
  have hfo (u : Bytes) : (fold u).countP isAscii = u.countP isAscii := by
    rw [fold, countP_map]
    exact countP_congr fun b _ => by rw [Function.comp_apply, isAscii_lower]
  rw [← hfo s, h, hfo]

theorem count_slash_of_fold_eq (h : fold s = fold t) : s.count slash = t.count slash := by
  have hfo (u : Bytes) : (fold u).count slash = u.count slash := by
    rw [fold, List.count, countP_map]
    refine countP_congr fun b _ => ?_
    rw [Function.comp_apply, beq_iff_eq, beq_iff_eq]
    exact lower_eq_iff (by decide)
  rw [← hfo s, h, hfo]

/-- Cutting before a slash: what follows has to be decoded apart. -/
theorem drop_eq_of_slash
    (hlead : fold ((decoded (lead ++ slash :: t)).take lead.length) = fold lead)
    (h : decoded (slash :: t) = rootBytes ((decoded (lead ++ slash :: t)).drop lead.length)) :
    (decoded (lead ++ slash :: t)).drop lead.length = decoded (slash :: t) := by
  rw [decoded_append_slash] at hlead h ⊢
  rw [decoded_slash_cons] at h ⊢
  by_cases hhd : ((decoded lead ++ slash :: decoded t).drop lead.length).head? = some slash
  · rw [rootBytes_of_head hhd] at h
    exact h.symm
  · -- The slash in front of the rest is the last byte of the prefix, so the decoded prefix has
    -- fewer slashes than the prefix itself.
    rw [rootBytes_of_head_ne hhd] at h
    have hlen := congrArg List.length h
    have hfit := congrArg List.length hlead
    simp only [length_fold, length_take, length_cons, length_drop, length_append] at hlen hfit
    rcases Nat.lt_or_ge (decoded lead).length lead.length with hsh | hlg
    · have htk : (decoded lead ++ slash :: decoded t).take lead.length =
          decoded lead ++ [slash] := by
        have hone : lead.length - (decoded lead).length = 1 := by omega
        rw [take_append, take_of_length_le (by omega), hone, take_succ_cons, take_zero]
      rw [htk] at hlead
      have hc := count_slash_of_fold_eq hlead
      rw [count_append, count_singleton_self] at hc
      have hle := count_slash_le_decoded lead
      omega
    · omega

/-- Cutting before any other byte: no slash of the decoded path can stand for the one that is put
in front of the rest. -/
theorem drop_ne_slash_cons {rest : Bytes}
    (hlead : fold ((decoded (lead ++ rest)).take lead.length) = fold lead) :
    (decoded (lead ++ rest)).drop lead.length ≠ slash :: decoded rest := by
  intro h
  have hle := countP_isAscii_decoded_append_le lead rest
  rw [← take_append_drop lead.length (decoded (lead ++ rest)), countP_append, h,
    countP_isAscii_of_fold_eq hlead, countP_cons_of_pos (by decide)] at hle
  omega

/-- When the rest of a path, with a slash in front of it, is decoded to the rest of the decoded
path with a slash in front of it. -/
theorem decoded_rootBytes_iff {rest : Bytes}
    (hlead : fold ((decoded (lead ++ rest)).take lead.length) = fold lead) :
    decoded (rootBytes rest) = rootBytes ((decoded (lead ++ rest)).drop lead.length) ↔
      (decoded (lead ++ rest)).drop lead.length = decoded rest ∧
        (rest.head? = some slash ∨ (decoded rest).head? ≠ some slash) := by
  by_cases hhd : rest.head? = some slash
  · rw [rootBytes_of_head hhd]
    constructor
    · intro h
      obtain ⟨t, rfl⟩ := List.head?_eq_some_iff.mp hhd
      exact ⟨drop_eq_of_slash hlead h, .inl hhd⟩
    · rintro ⟨hdr, -⟩
      rw [hdr, rootBytes_of_head (head_decoded_of_head hhd)]
  · rw [rootBytes_of_head_ne hhd, decoded_slash_cons]
    constructor
    · intro h
      by_cases hdr : ((decoded (lead ++ rest)).drop lead.length).head? = some slash
      · rw [rootBytes_of_head hdr] at h
        exact absurd h.symm (drop_ne_slash_cons hlead)
      · rw [rootBytes_of_head_ne hdr] at h
        have hrest := (List.cons.inj h).2
        exact ⟨hrest.symm, .inr (hrest ▸ hdr)⟩
    · rintro ⟨hdr, hsl⟩
      rw [hdr, rootBytes_of_head_ne (hsl.resolve_left hhd)]

theorem take_of_startsWith {text : Bytes} (h : startsWith text pre = true) :
    fold (text.take pre.length) = fold pre := by
  rw [startsWith, Bool.and_eq_true, eqIgnoreCase_iff] at h
  exact h.2

theorem length_le_of_startsWith {text : Bytes} (h : startsWith text pre = true) :
    pre.length ≤ text.length := by
  rw [startsWith, Bool.and_eq_true] at h
  exact of_decide_eq_true h.1

theorem decoded_stripped_iff (hse : startsWith path pre = true)
    (hac : startsWith (decoded path) pre = true) :
    decoded (rootBytes (path.drop pre.length)) = rootBytes ((decoded path).drop pre.length) ↔
      (decoded path).drop pre.length = decoded (path.drop pre.length) ∧
        ((path.drop pre.length).head? = some slash ∨
          (decoded (path.drop pre.length)).head? ≠ some slash) := by
  have hlen : (path.take pre.length).length = pre.length :=
    length_take_of_le (length_le_of_startsWith hse)
  have hlead : fold ((decoded (path.take pre.length ++ path.drop pre.length)).take
      (path.take pre.length).length) = fold (path.take pre.length) := by
    rw [take_append_drop, hlen, take_of_startsWith hac, take_of_startsWith hse]
  have hiff := decoded_rootBytes_iff hlead
  rwa [take_append_drop, hlen] at hiff

/-- The handlers of a group see the decoded path without the prefix, and the query. -/
structure Stripped (pre : Utf8.Str) (target handed : Target) : Prop where
  accepted : startsWith (decodeForMatching target.path.bytes) pre.bytes = true
  path : decodeForMatching handed.path.bytes =
    rootBytes ((decodeForMatching target.path.bytes).drop pre.bytes.length)
  query : handed.query = target.query

/-- A request whose prefix was sent as the configuration spells it, whose rest is decoded apart
from the prefix without a slash appearing at its front, and that has no empty query. -/
structure Spelled (pre : Utf8.Str) (target : Target) : Prop where
  accepted : startsWith (decodeForMatching target.path.bytes) pre.bytes = true
  sent : startsWith target.path.bytes pre.bytes = true
  apart : (decodeForMatching target.path.bytes).drop pre.bytes.length =
    decodeForMatching (target.path.bytes.drop pre.bytes.length)
  front : (target.path.bytes.drop pre.bytes.length).head? = some slash ∨
    (decodeForMatching (target.path.bytes.drop pre.bytes.length)).head? ≠ some slash
  query : ∀ query ∈ target.query, query.bytes ≠ []

theorem decodeForMatching_of_not_mem (h : percent ∉ path) (hqm : question ∉ path) :
    decodeForMatching path = path := by
  rw [decodeForMatching_path hqm, if_pos (.inl h), decode_of_not_mem h]

/-- Where nothing is cut off, the path is not the one without the prefix. -/
theorem sent_of_stripped {pre : Str}
    (hst : target.path.bytes.head? = some slash ∨ percent ∉ target.path.bytes)
    (hac : startsWith (decodeForMatching target.path.bytes) pre.bytes = true)
    (h : decodeForMatching target.path.bytes =
      rootBytes ((decodeForMatching target.path.bytes).drop pre.bytes.length)) :
    startsWith target.path.bytes pre.bytes = true := by
  rcases hst with hsl | hpct
  · have hhd : (decodeForMatching target.path.bytes).head? = some slash := by
      rw [h]
      exact head_rootBytes _
    rw [startsWith_iff] at hac ⊢
    rw [rootBytes] at h
    have hlen := congrArg List.length h
    have hfit := hac.length_le
    rw [length_fold, length_fold] at hfit
    -- Only the first byte can be missing from the path, and that is its slash.
    cases hpre : pre.bytes with
    | nil => exact nil_prefix
    | cons b more =>
      have hmo : more = [] := by
        rw [hpre] at hlen hfit
        rw [length_cons] at hfit
        split at hlen
        · rw [length_drop, length_cons] at hlen
          omega
        · rw [length_cons, length_drop, length_cons] at hlen
          exact length_eq_zero_iff.mp (by omega)
      obtain ⟨t, ht⟩ := List.head?_eq_some_iff.mp hsl
      obtain ⟨u, hu⟩ := List.head?_eq_some_iff.mp hhd
      rw [hpre, hmo, hu, fold_cons, fold_cons, cons_prefix_cons] at hac
      rw [hmo, ht, fold_cons, fold_cons, cons_prefix_cons]
      exact ⟨hac.1, nil_prefix⟩
  · rwa [decodeForMatching_of_not_mem hpct target.path_no_question] at hac

theorem Target.query_stripped_iff {rest : Str} (h : question ∉ rest.bytes) :
    (target.stripped rest h).query = target.query ↔
      ∀ q ∈ target.query, q.bytes ≠ [] := by
  rw [Target.stripped]
  cases target.query with
  | none => simp
  | some q => simp [Option.filter_eq_some_iff]

/-- **The handlers of a group see the request without the prefix exactly when the prefix was sent
as it is spelled.** A path starts with a slash, or it is a star and has no escapes. -/
theorem stripped_iff (pre : Utf8.Str) (target : Target)
    (hstart : target.path.bytes.head? = some slash ∨ percent ∉ target.path.bytes) :
    Stripped pre target (Target.read (handedOver pre target)) ↔ Spelled pre target := by
  have hstr := stripPathPrefix_eq target.path pre
  by_cases hse : startsWith target.path.bytes pre.bytes = true
  · rw [if_pos hse, Option.map_eq_some_iff] at hstr
    obtain ⟨rest, hrest, hbs⟩ := hstr
    have hqm : question ∉ rest.bytes := by
      rw [hbs]
      exact fun hmem => target.path_no_question (mem_of_mem_drop hmem)
    rw [handedOver, hrest, Option.isSome_some, if_pos rfl, rewriteUri_text hrest hqm,
      Target.read_text]
    have hp : decodeForMatching target.path.bytes = decoded target.path.bytes :=
      decodeForMatching_eq_decoded target.path.isValid target.path_no_question
    have hc : decodeForMatching (target.path.bytes.drop pre.bytes.length) =
        decoded (target.path.bytes.drop pre.bytes.length) := by
      rw [← hbs]
      exact decodeForMatching_eq_decoded rest.isValid hqm
    have hhanded : decodeForMatching (target.stripped rest hqm).path.bytes =
        decoded (rootBytes (target.path.bytes.drop pre.bytes.length)) := by
      rw [← hbs, ← bytes_rootPath]
      exact decodeForMatching_eq_decoded (rootPath rest).isValid (question_not_mem_rootPath hqm)
    have hiff (hac : startsWith (decodeForMatching target.path.bytes) pre.bytes = true) :=
      decoded_stripped_iff hse (hp ▸ hac)
    constructor
    · intro h
      have hpaths := h.path
      rw [hhanded, hp, hiff h.accepted] at hpaths
      rw [← hc, ← hp] at hpaths
      exact ⟨h.accepted, hse, hpaths.1, hpaths.2, (Target.query_stripped_iff _).mp h.query⟩
    · intro h
      refine ⟨h.accepted, ?_, (Target.query_stripped_iff _).mpr h.query⟩
      rw [hhanded, hp, hiff h.accepted, ← hc, ← hp]
      exact ⟨h.apart, h.front⟩
  · rw [if_neg hse, Option.map_eq_none_iff] at hstr
    rw [handedOver, hstr, if_neg (by simp), Target.read_text]
    constructor
    · intro h
      exact absurd (sent_of_stripped hstart h.accepted h.path) hse
    · intro h
      exact absurd h.sent hse

namespace PathGroup

def spaced : Utf8.Str := ⟨ascii "/a b", by decide⟩

def escapedRequest : Target where
  path := ⟨ascii "/a%20b/%78", by decide⟩
  query := none
  path_no_question := by decide

def plainRequest : Target where
  path := ⟨ascii "/Shop/%78", by decide⟩
  query := some ⟨ascii "k=v", by decide⟩
  path_no_question := by decide

def shop : Utf8.Str := ⟨ascii "/shop", by decide⟩

theorem stripped_plain :
    plainRequest.path.bytes.head? = some slash ∧
      Stripped shop plainRequest (Target.read (handedOver shop plainRequest)) := by
  refine ⟨by decide, (stripped_iff shop plainRequest (.inl (by decide))).mpr ?_⟩
  exact ⟨by decide +kernel, by decide +kernel, by decide +kernel, by decide +kernel,
    by simp [plainRequest, ascii]⟩

/-- **A pattern accepts the request, and its prefix is not cut off.** -/
theorem not_stripped_escaped :
    (PathPattern.of (ascii "/a b/*")).matches (decodeForMatching escapedRequest.path.bytes) = true ∧
      handedOver spaced escapedRequest = escapedRequest.text ∧
      ¬ Stripped spaced escapedRequest (Target.read (handedOver spaced escapedRequest)) := by
  have hhanded : handedOver spaced escapedRequest = escapedRequest.text := by
    rw [handedOver, if_neg (by decide +kernel)]
  refine ⟨by decide +kernel, hhanded, ?_⟩
  intro h
  have hp := h.path
  exact absurd hp (by decide +kernel)

end PathGroup

end Pingclair
