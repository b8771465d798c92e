import Pingclair.Backend.FastCgi

/-!
# Host names

What a request's authority names, and the names a wildcard covers. A wildcard covers one label, so
a name has at most one wildcard above it.
-/

namespace Pingclair

open ByteText AsciiCase FastCgi List Option

def stripDot (host : Bytes) : Bytes := (host.dropSuffix? [dot]).getD host

/-- The one form of a name that everything compares against. -/
def canonicalHost (host : Bytes) : Bytes := fold (stripDot host)

def requestHost (authority : Bytes) : Bytes := canonicalHost (authorityHost authority)

def wildcardHostMatches (suffix host : Bytes) : Bool :=
  match (host.dropSuffix? suffix).bind (·.dropSuffix? [dot]) with
  | none => false
  | some label => !label.isEmpty && !label.contains dot

def starDot : Bytes := [star, dot]

def wildcardOf (name : Bytes) : Option Bytes :=
  ((splitOnce dot name).filter fun cut => !cut.1.isEmpty).map fun cut => starDot ++ cut.2

variable (s : Bytes)

theorem stripDot_concat : stripDot (s ++ [dot]) = s := by
  have h : (s ++ [dot]).dropSuffix? [dot] = some s := dropSuffix?_eq_some.mpr rfl
  rw [stripDot, h, getD_some]

theorem stripDot_of_not_suffix {s : Bytes} (h : ¬ [dot] <:+ s) : stripDot s = s := by
  rw [stripDot]
  cases hdr : s.dropSuffix? [dot] with
  | none => rfl
  | some t => exact absurd ⟨t, (dropSuffix?_eq_some.mp hdr).symm⟩ h

theorem stripDot_cases : s = stripDot s ++ [dot] ∨ stripDot s = s := by
  by_cases h : [dot] <:+ s
  · obtain ⟨t, rfl⟩ := h
    exact .inl (by rw [stripDot_concat])
  · exact .inr (stripDot_of_not_suffix h)

theorem stripDot_isPrefix : stripDot s <+: s := by
  rcases stripDot_cases s with h | h
  · exact ⟨[dot], h.symm⟩
  · rw [h]

theorem fold_stripDot : fold (stripDot s) = stripDot (fold s) := by
  rcases stripDot_cases s with h | h
  · rw [h, fold_append, stripDot_concat]
    exact (stripDot_concat _).symm
  · rw [h]
    refine (stripDot_of_not_suffix ?_).symm
    rintro ⟨t, ht⟩
    obtain ⟨t', l, rfl, rfl, hla⟩ := map_eq_append_iff.mp ht.symm
    obtain ⟨b, rfl, hb⟩ := map_eq_singleton_iff.mp hla
    rw [(lower_eq_iff (by decide)).mp hb, stripDot_concat] at h
    simpa using congrArg List.length h

theorem fold_canonicalHost : fold (canonicalHost s) = canonicalHost s := fold_fold _

variable {name authority : Bytes} {mark : UInt8}

theorem wildcardOf_eq_some_iff {pattern : Bytes} :
    wildcardOf name = some pattern ↔
      ∃ l suffix, name = l ++ dot :: suffix ∧ l ≠ [] ∧ dot ∉ l ∧ pattern = starDot ++ suffix := by
  simp only [wildcardOf, map_eq_some_iff, filter_eq_some_iff]
  constructor
  · rintro ⟨⟨l, suffix⟩, ⟨hc, hlab⟩, rfl⟩
    obtain ⟨rfl, hd⟩ := splitOnce_eq_some hc
    exact ⟨l, suffix, rfl, by simpa using hlab, hd, rfl⟩
  · rintro ⟨l, suffix, rfl, hlab, hd, rfl⟩
    exact ⟨(l, suffix), ⟨splitOnce_append hd, by simpa using hlab⟩, rfl⟩

theorem wildcardHostMatches_iff {suf host : Bytes} :
    wildcardHostMatches suf host = true ↔ wildcardOf host = some (starDot ++ suf) := by
  rw [wildcardOf_eq_some_iff, wildcardHostMatches]
  constructor
  · intro h
    cases hc : (host.dropSuffix? suf).bind (·.dropSuffix? [dot]) with
    | none => simp [hc] at h
    | some label =>
      simp only [hc, Bool.and_eq_true, Bool.not_eq_true', isEmpty_eq_false_iff,
        contains_eq_mem, decide_eq_false_iff_not] at h
      obtain ⟨before, hb, hlab⟩ := bind_eq_some_iff.mp hc
      rw [dropSuffix?_eq_some] at hb hlab
      exact ⟨label, suf, by simp [hb, hlab], h.1, h.2, rfl⟩
  · rintro ⟨label, suf', rfl, hlab, hd, hsuf⟩
    obtain rfl : suf = suf' := append_cancel_left hsuf
    have hc : ((label ++ dot :: suf).dropSuffix? suf).bind (·.dropSuffix? [dot]) = some label := by
      have hb : (label ++ dot :: suf).dropSuffix? suf = some (label ++ [dot]) :=
        dropSuffix?_eq_some.mpr (by simp)
      rw [hb]
      exact dropSuffix?_eq_some.mpr rfl
    simp [hc, hlab, hd]

theorem wildcardOf_starDot (suf : Bytes) : wildcardOf (starDot ++ suf) = some (starDot ++ suf) :=
  wildcardOf_eq_some_iff.mpr ⟨[star], suf, rfl, by simp, by decide, rfl⟩

theorem authorityHost_of_bracket {rest : Bytes} (h : authority = 0x5B :: rest) :
    (0x5D ∉ authority ∧ authorityHost authority = authority) ∨
      (0x5D ∈ authority ∧ 0x5D ∉ authorityHost authority) := by
  have hdr : authority.dropPrefix? [0x5B] = some rest := dropPrefix?_eq_some.mpr h
  cases hc : splitOnce 0x5D rest with
  | none =>
    refine .inl ⟨?_, by simp [authorityHost, hdr, hc]⟩
    have hrest := splitOnce_eq_none hc
    simpa [h] using hrest
  | some cut =>
    obtain ⟨hrest, hn⟩ := splitOnce_eq_some (t := cut.1) (u := cut.2) hc
    refine .inr ⟨by simp [h, hrest], ?_⟩
    simpa [authorityHost, hdr, hc] using hn

theorem authorityHost_isPrefix (h : authority.head? ≠ some 0x5B) :
    authorityHost authority <+: authority := by
  have hdr : authority.dropPrefix? [0x5B] = none := by
    cases hdr : authority.dropPrefix? [0x5B] with
    | none => rfl
    | some rest => simp [dropPrefix?_eq_some.mp hdr] at h
  simp only [authorityHost, hdr]
  split
  · exact prefix_rfl
  · split
    · next host port hc =>
      obtain ⟨rfl, -⟩ := splitOnce_eq_some hc
      split
      · exact prefix_append _ _
      · exact prefix_rfl
    · exact prefix_rfl

theorem requestHost_stripDot (authority : Bytes) :
    requestHost authority = stripDot (fold (authorityHost authority)) := fold_stripDot _

theorem lower_eq_mark_iff {b : UInt8} (hmk : mark ∈ [star, dot, 0x5B, 0x5D]) :
    lower b = mark ↔ b = mark := by
  unfold lower isUpper
  split <;> grind

theorem mem_fold_iff (hmk : mark ∈ [star, dot, 0x5B, 0x5D]) {s : Bytes} :
    mark ∈ fold s ↔ mark ∈ s := by
  simp [fold, lower_eq_mark_iff hmk]

theorem head?_fold_iff (hmk : mark ∈ [star, dot, 0x5B, 0x5D]) {s : Bytes} :
    (fold s).head? = some mark ↔ s.head? = some mark := by
  simp [fold, lower_eq_mark_iff hmk]

theorem head?_of_isPrefix {s t : Bytes} {b : UInt8} (h : s <+: t) (hs : s.head? = some b) :
    t.head? = some b := by
  obtain ⟨u, rfl⟩ := h
  cases s with
  | nil => simp at hs
  | cons c s => simpa using hs

theorem bracketed_requestHost (hhd : (requestHost authority).head? = some 0x5B) :
    0x5D ∉ requestHost authority := by
  have hmk : (0x5B : UInt8) ∈ [star, dot, 0x5B, 0x5D] := by decide
  rw [requestHost, canonicalHost, head?_fold_iff hmk] at hhd
  have haut := head?_of_isPrefix (stripDot_isPrefix _) hhd
  have hn : 0x5D ∉ authorityHost authority := by
    by_cases h : authority.head? = some 0x5B
    · obtain ⟨rest, hrest⟩ := List.head?_eq_some_iff.mp h
      rcases authorityHost_of_bracket hrest with ⟨hn, heq⟩ | ⟨-, hn⟩
      · rwa [heq]
      · exact hn
    · exact absurd (head?_of_isPrefix (authorityHost_isPrefix h) haut) h
  rw [requestHost, canonicalHost, mem_fold_iff (by decide)]
  exact fun hmem => hn ((stripDot_isPrefix _).subset hmem)

theorem starDot_fold_iff {s : Bytes} : starDot <+: fold s ↔ starDot <+: s := by
  have hstar : ∀ b, star = lower b ↔ star = b := fun b => by
    rw [eq_comm, lower_eq_mark_iff (by decide), eq_comm]
  have hd : ∀ b, dot = lower b ↔ dot = b := fun b => by
    rw [eq_comm, lower_eq_mark_iff (by decide), eq_comm]
  match s with
  | [] => simp [starDot]
  | [a] => simp [starDot]
  | a :: b :: s => simp [starDot, hstar, hd]

/-- A site name that routes as a wildcard is spelled as one, or in brackets. -/
theorem starDot_of_requestHost (h : starDot <+: requestHost name) :
    starDot <+: name ∨ (name.head? = some 0x5B ∧ 0x5D ∈ name) := by
  have hh : starDot <+: authorityHost name := (starDot_fold_iff.mp h).trans (stripDot_isPrefix _)
  by_cases hhd : name.head? = some 0x5B
  · obtain ⟨rest, hrest⟩ := List.head?_eq_some_iff.mp hhd
    rcases authorityHost_of_bracket hrest with ⟨-, heq⟩ | ⟨hmem, -⟩
    · rw [heq] at hh
      have hstar : name.head? = some star := head?_of_isPrefix hh rfl
      rw [hhd] at hstar
      exact absurd hstar (by decide)
    · exact .inr ⟨hhd, hmem⟩
  · exact .inl (hh.trans (authorityHost_isPrefix hhd))

theorem authorityHost_of_starDot (h : starDot <+: name) : starDot <+: authorityHost name := by
  obtain ⟨rest, rfl⟩ := h
  have hdr : (starDot ++ rest).dropPrefix? [0x5B] = none := by
    cases hdr : (starDot ++ rest).dropPrefix? [0x5B] with
    | none => rfl
    | some rest' =>
      have hhd := congrArg List.head? (dropPrefix?_eq_some.mp hdr)
      exact absurd hhd (by simp [starDot]; decide)
  simp only [authorityHost, hdr]
  split
  · exact prefix_append _ _
  · split
    · next host port hc =>
      split
      · -- The colon stands behind the two bytes that make the wildcard.
        obtain ⟨hn, -⟩ := splitOnce_eq_some hc
        have hboth := prefix_or_prefix_of_prefix (prefix_append starDot rest)
          (hn ▸ prefix_append host (0x3A :: port))
        rcases hboth with h | ⟨bc, hbk⟩
        · exact h
        · rw [← hbk, append_assoc] at hn
          have hcol := append_cancel_left hn
          cases bc with
          | nil => exact ⟨[], by rw [← hbk, append_nil, append_nil]⟩
          | cons b bc =>
            obtain rfl : b = 0x3A := (List.cons.inj hcol).1
            have hmem : (0x3A : UInt8) ∈ starDot := by rw [← hbk]; simp
            exact absurd hmem (by decide)
      · exact prefix_append _ _
    · exact prefix_append _ _

theorem stripDot_of_starDot {s : Bytes} (h : starDot <+: s) :
    stripDot s = [star] ∨ starDot <+: stripDot s := by
  rcases stripDot_cases s with hs | hs
  · rw [hs] at h
    match hrest : stripDot s, h with
    | [], h => simp [starDot] at h
    | [a], h =>
      simp [starDot] at h
      simp [h]
    | a :: b :: t, h =>
      simp [starDot] at h
      simp [h, starDot]
  · rw [hs]
    exact .inr h

/-- A site name that is spelled as a wildcard routes as one, or as the star alone. -/
theorem requestHost_of_starDot (h : starDot <+: name) :
    requestHost name = [star] ∨ starDot <+: requestHost name := by
  rw [requestHost_stripDot]
  exact stripDot_of_starDot (starDot_fold_iff.mpr (authorityHost_of_starDot h))

end Pingclair
