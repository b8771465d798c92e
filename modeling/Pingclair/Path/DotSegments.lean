import Pingclair.Lib.ByteText

/-!
# Removing dot segments

`removeDotSegments` is the loop of RFC 3986 §5.2.4 over an input text and an output
buffer. On an absolute path it is a stack machine over the segments: `resolveDots`
pushes every segment, an empty one included, skips `.` and pops on `..`, and a path that
ends in a dot segment ends in an empty segment instead.
-/

namespace Pingclair

open ByteText List

def isDot (seg : Bytes) : Bool := seg = [dot] || seg = [dot, dot]

variable {seg : Bytes}

theorem isDot_iff : isDot seg = true ↔ seg = [dot] ∨ seg = [dot, dot] := by
  simp [isDot]

def removeLastSegment (out : Bytes) : Bytes :=
  match rfind slash out with
  | some index => out.take index
  | none => []

/-- Where the first segment of the input ends, its leading `/` included when it has
one. -/
def firstSegmentEnd (input : Bytes) : Nat :=
  match input.dropPrefix? [slash] with
  | some rest =>
    match rest.idxOf? slash with
    | some index => index + 1
    | none => input.length
  | none =>
    match input.idxOf? slash with
    | some index => index
    | none => input.length

theorem firstSegmentEnd_pos {input : Bytes} (h : input ≠ []) : 0 < firstSegmentEnd input := by
  obtain ⟨b, rest, rfl⟩ := exists_cons_of_ne_nil h
  rw [firstSegmentEnd]
  split
  · split <;> simp
  · next hnone =>
    split
    · next i hidx =>
      rw [Nat.pos_iff_ne_zero]
      rintro rfl
      obtain ⟨_, hb, -⟩ := List.idxOf?_eq_some_iff.mp hidx
      subst hb
      simp [List.dropPrefix?] at hnone
    · simp

/-- RFC 3986 §5.2.4 `remove_dot_segments`. -/
def removeDotSegmentsLoop (input out : Bytes) : Bytes :=
  if _hne : input = [] then out
  else
    match _hrest : (input.dropPrefix? [dot, dot, slash]).or (input.dropPrefix? [dot, slash]) with
    | some rest => removeDotSegmentsLoop rest out
    | none =>
      if [slash, dot, slash].isPrefixOf input then
        removeDotSegmentsLoop (input.drop 2) out
      else if input = [slash, dot] then
        removeDotSegmentsLoop [slash] out
      else if [slash, dot, dot, slash].isPrefixOf input then
        removeDotSegmentsLoop (input.drop 3) (removeLastSegment out)
      else if input = [slash, dot, dot] then
        removeDotSegmentsLoop [slash] (removeLastSegment out)
      else if input = [dot] ∨ input = [dot, dot] then
        removeDotSegmentsLoop [] out
      else
        removeDotSegmentsLoop (input.drop (firstSegmentEnd input))
          (out ++ input.take (firstSegmentEnd input))
termination_by input.length
decreasing_by
  · rcases Option.or_eq_some_iff.mp _hrest with h | ⟨-, h⟩ <;>
      rw [dropPrefix?_eq_some.mp h] <;> simp only [length_append, length_cons] <;>
      omega
  · next hpre =>
    have := (List.isPrefixOf_iff_prefix.mp hpre).length_le
    simp only [length_drop, length_cons] at this ⊢
    omega
  · next hin => simp [hin]
  · next hpre =>
    have := (List.isPrefixOf_iff_prefix.mp hpre).length_le
    simp only [length_drop, length_cons] at this ⊢
    omega
  · next hin => simp [hin]
  · exact length_pos_iff.mpr _hne
  · have := firstSegmentEnd_pos _hne
    have := length_pos_iff.mpr _hne
    simp only [length_drop]
    omega

def removeDotSegments (path : Bytes) : Bytes := removeDotSegmentsLoop path []

/-- The segments that are left when dots are resolved over a stack of segments. -/
def resolveDots : List Bytes → List Bytes → List Bytes
  | stack, [] => stack
  | stack, seg :: segs =>
    if seg = [dot] then
      if segs = [] then stack ++ [[]] else resolveDots stack segs
    else if seg = [dot, dot] then
      if segs = [] then stack.dropLast ++ [[]] else resolveDots stack.dropLast segs
    else resolveDots (stack ++ [seg]) segs

variable {stack : List Bytes} {out : Bytes}

theorem mem_resolveDots {segs : List Bytes} (h : seg ∈ resolveDots stack segs) :
    seg ∈ stack ∨ seg ∈ segs ∨ seg = [] := by
  induction segs generalizing stack with
  | nil => exact .inl h
  | cons x segs ih =>
    have hpop : seg ∈ stack.dropLast → seg ∈ stack := mem_of_mem_dropLast
    rw [resolveDots] at h
    split_ifs at h
    · simp only [mem_append, mem_singleton] at h
      tauto
    · have := ih h
      tauto
    · simp only [mem_append, mem_singleton] at h
      tauto
    · have := ih h
      tauto
    · have := ih h
      simp only [mem_append, mem_cons] at this ⊢
      tauto

theorem removeLastSegment_rooted (h : ∀ seg ∈ stack, slash ∉ seg) :
    removeLastSegment (rooted slash stack) = rooted slash stack.dropLast := by
  induction stack using List.reverseRecOn with
  | nil => rfl
  | append_singleton stack seg _ =>
    have hsg : slash ∉ seg := h seg (by simp)
    have hfi : rfind slash (rooted slash stack ++ slash :: seg) =
        some (rooted slash stack).length := rfind_append hsg
    simp [removeLastSegment, hfi]

variable {segs : List Bytes}

theorem firstSegmentEnd_rooted (hsg : slash ∉ seg) :
    firstSegmentEnd (slash :: (seg ++ rooted slash segs)) = seg.length + 1 := by
  have hdr : (slash :: (seg ++ rooted slash segs)).dropPrefix? [slash] =
      some (seg ++ rooted slash segs) := dropPrefix?_eq_some.mpr rfl
  rw [firstSegmentEnd, hdr]
  simp only [idxOf?_append_rooted hsg]
  by_cases hs : segs = [] <;> simp [hs]

/-- What one turn of the loop does to the first segment of an absolute path. -/
theorem removeDotSegmentsLoop_cons (hsg : slash ∉ seg) (segs : List Bytes) (out : Bytes) :
    removeDotSegmentsLoop (rooted slash (seg :: segs)) out =
      if seg = [dot] then
        removeDotSegmentsLoop (if segs = [] then [slash] else rooted slash segs) out
      else if seg = [dot, dot] then
        removeDotSegmentsLoop (if segs = [] then [slash] else rooted slash segs)
          (removeLastSegment out)
      else removeDotSegmentsLoop (rooted slash segs) (out ++ slash :: seg) := by
  -- each test of the loop, read as a test of the first segment
  have hstr : ((rooted slash (seg :: segs)).dropPrefix? [dot, dot, slash]).or
      ((rooted slash (seg :: segs)).dropPrefix? [dot, slash]) = none := by
    simp [List.dropPrefix?]
  have hpre : ∀ w : Bytes, slash ∉ w →
      ((slash :: (w ++ [slash])).isPrefixOf (rooted slash (seg :: segs)) = true ↔
        seg = w ∧ segs ≠ []) := by
    intro w hw
    simpa using prefix_append_rooted_iff hsg hw
  have ha : ∀ w : Bytes, slash ∉ w →
      (rooted slash (seg :: segs) = slash :: w ↔ seg = w ∧ segs = []) := by
    intro w hw
    rw [rooted_cons, cons_append, cons_inj_right]
    exact append_rooted_eq_iff hw
  have hone := hpre [dot] (by decide)
  have htwo := hpre [dot, dot] (by decide)
  have hone' := ha [dot] (by decide)
  have htwo' := ha [dot, dot] (by decide)
  have hpl : ¬(rooted slash (seg :: segs) = [dot] ∨ rooted slash (seg :: segs) = [dot, dot]) := by
    simp
  simp only [cons_append, nil_append] at hone htwo
  rw [removeDotSegmentsLoop, hstr]
  simp only [hone, hone', htwo, htwo', hpl, if_false]
  by_cases hd : seg = [dot]
  · subst hd
    by_cases hs : segs = [] <;> simp [hs]
  · by_cases hdd : seg = [dot, dot]
    · subst hdd
      by_cases hs : segs = [] <;> simp [hs]
    · simp only [hd, hdd, false_and, if_false]
      rw [rooted_cons, cons_append, firstSegmentEnd_rooted hsg]
      simp

@[simp] theorem removeDotSegmentsLoop_nil (out : Bytes) : removeDotSegmentsLoop [] out = out := by
  rw [removeDotSegmentsLoop, dif_pos rfl]

theorem removeDotSegmentsLoop_slash (out : Bytes) :
    removeDotSegmentsLoop [slash] out = out ++ [slash] := by
  have hni : slash ∉ ([] : Bytes) := by simp
  simpa using removeDotSegmentsLoop_cons hni [] out

/-- On an absolute path the loop is the stack machine over its segments. -/
theorem removeDotSegmentsLoop_rooted (hstack : ∀ seg ∈ stack, slash ∉ seg)
    (hsegs : ∀ seg ∈ segs, slash ∉ seg) :
    removeDotSegmentsLoop (rooted slash segs) (rooted slash stack) =
      rooted slash (resolveDots stack segs) := by
  induction segs generalizing stack with
  | nil => simp [resolveDots]
  | cons seg segs ih =>
    obtain ⟨hseg, htail⟩ := forall_mem_cons.mp hsegs
    have hpop : ∀ x ∈ stack.dropLast, slash ∉ x := fun x hx =>
      hstack x (mem_of_mem_dropLast hx)
    rw [removeDotSegmentsLoop_cons hseg, removeLastSegment_rooted hstack, resolveDots]
    split
    · by_cases hs : segs = []
      · simp [hs, removeDotSegmentsLoop_slash]
      · simp [hs, ih hstack htail]
    · split
      · by_cases hs : segs = []
        · simp [hs, removeDotSegmentsLoop_slash]
        · simp [hs, ih hpop htail]
      · have hpush : ∀ x ∈ stack ++ [seg], slash ∉ x :=
          forall_mem_append.mpr ⟨hstack, forall_mem_singleton.mpr hseg⟩
        rw [← ih hpush htail]
        simp

theorem removeDotSegments_rooted (h : ∀ seg ∈ segs, slash ∉ seg) :
    removeDotSegments (rooted slash segs) = rooted slash (resolveDots [] segs) :=
  removeDotSegmentsLoop_rooted (forall_mem_nil _) h

/-! ### No dot is left -/

def NoDots (s : Bytes) : Prop := ∀ seg ∈ s.splitOn slash, isDot seg = false

theorem noDots_append_rooted (hsg : slash ∉ seg) (hss : ∀ x ∈ segs, slash ∉ x) :
    NoDots (seg ++ rooted slash segs) ↔ ∀ x ∈ seg :: segs, isDot x = false := by
  rw [NoDots, splitOn_append_rooted hsg hss]

theorem NoDots.removeLastSegment (h : NoDots out) : NoDots (removeLastSegment out) := by
  obtain ⟨seg, segs, rfl, hsg, hss⟩ := exists_append_rooted slash out
  rw [noDots_append_rooted hsg hss] at h
  induction segs using List.reverseRecOn with
  | nil =>
    have hfi : rfind slash seg = none := rfind_of_not_mem hsg
    simp [Pingclair.removeLastSegment, hfi, NoDots, isDot]
  | append_singleton segs last _ =>
    have hla : slash ∉ last := hss last (by simp)
    have hin : ∀ x ∈ segs, slash ∉ x := fun x hx => hss x (by simp [hx])
    have hfi : rfind slash (seg ++ rooted slash segs ++ slash :: last) =
        some (seg ++ rooted slash segs).length := rfind_append hla
    have hout : Pingclair.removeLastSegment (seg ++ rooted slash (segs ++ [last])) =
        seg ++ rooted slash segs := by
      simp only [rooted_append, rooted_cons, rooted_nil, append_nil, ← append_assoc]
      rw [Pingclair.removeLastSegment, hfi]
      exact take_left
    rw [hout, noDots_append_rooted hsg hin]
    intro x hx
    exact h x (by simp only [mem_cons, mem_append] at hx ⊢; tauto)

theorem NoDots.append_cons (h : NoDots out) (hseg : slash ∉ seg) (hdot : isDot seg = false) :
    NoDots (out ++ slash :: seg) := by
  rw [NoDots, splitOn_append_cons_self, splitOn_eq_singleton hseg]
  exact forall_mem_append.mpr ⟨h, forall_mem_singleton.mpr hdot⟩

theorem NoDots.removeDotSegmentsLoop (h : NoDots out) (hss : ∀ seg ∈ segs, slash ∉ seg) :
    NoDots (removeDotSegmentsLoop (rooted slash segs) out) := by
  induction segs generalizing out with
  | nil => simpa using h
  | cons seg segs ih =>
    obtain ⟨hsg, htl⟩ := forall_mem_cons.mp hss
    -- a dot at the end leaves `/`, which adds an empty segment
    have hend : ∀ out, NoDots out → NoDots (Pingclair.removeDotSegmentsLoop
        (if segs = [] then [slash] else rooted slash segs) out) := by
      intro out hout
      split
      · rw [removeDotSegmentsLoop_slash]
        exact hout.append_cons (by simp) (by decide)
      · exact ih hout htl
    rw [removeDotSegmentsLoop_cons hsg]
    split
    · exact hend out h
    · split
      · exact hend _ h.removeLastSegment
      · next hd hdd => exact ih (h.append_cons hsg (by simp [isDot, hd, hdd])) htl

theorem firstSegmentEnd_relative (hne : seg ≠ [])
    (hsg : slash ∉ seg) : firstSegmentEnd (seg ++ rooted slash segs) = seg.length := by
  have hdr : (seg ++ rooted slash segs).dropPrefix? [slash] = none := by
    have hni : slash ∉ ([] : Bytes) := not_mem_nil
    simpa [hne] using dropPrefix?_append_rooted hsg hni
  rw [firstSegmentEnd, hdr]
  simp only [idxOf?_append_rooted hsg]
  by_cases hs : segs = [] <;> simp [hs]

/-- What one turn of the loop does to the first segment of a relative path. -/
theorem removeDotSegmentsLoop_relative (hne : seg ≠ []) (hsg : slash ∉ seg)
    (segs : List Bytes) (out : Bytes) :
    removeDotSegmentsLoop (seg ++ rooted slash segs) out =
      if isDot seg then
        match segs with
        | [] => out
        | seg' :: segs' => removeDotSegmentsLoop (seg' ++ rooted slash segs') out
      else removeDotSegmentsLoop (rooted slash segs) (out ++ seg) := by
  have hstr : ∀ w : Bytes, slash ∉ w →
      (seg ++ rooted slash segs).dropPrefix? (w ++ [slash]) =
        if seg = w then segs.head?.map (· ++ rooted slash segs.tail) else none :=
    fun w hw => dropPrefix?_append_rooted hsg hw
  have hone := hstr [dot] (by decide)
  have htwo := hstr [dot, dot] (by decide)
  have ha : ∀ w : Bytes, slash ∉ w → (seg ++ rooted slash segs = w ↔ seg = w ∧ segs = []) :=
    fun w hw => append_rooted_eq_iff hw
  have hone' := ha [dot] (by decide)
  have htwo' := ha [dot, dot] (by decide)
  have hor : ((seg ++ rooted slash segs).dropPrefix? [dot, dot, slash]).or
      ((seg ++ rooted slash segs).dropPrefix? [dot, slash]) =
        if isDot seg then segs.head?.map (· ++ rooted slash segs.tail) else none := by
    simp only [cons_append, nil_append] at hone htwo
    rw [hone, htwo]
    by_cases hd : seg = [dot]
    · simp [hd, isDot]
    · by_cases hdd : seg = [dot, dot] <;> simp [hd, hdd, isDot]
  -- a relative path passes none of the tests for a leading `/`
  have hhd : (seg ++ rooted slash segs).head? ≠ some slash := by
    obtain ⟨b, seg', rfl⟩ := exists_cons_of_ne_nil hne
    simp only [mem_cons, not_or] at hsg
    simpa using Ne.symm hsg.1
  have hpre : ∀ w : Bytes, (slash :: w).isPrefixOf (seg ++ rooted slash segs) = false := by
    intro w
    rw [Bool.eq_false_iff, ne_eq, isPrefixOf_iff_prefix]
    rintro ⟨u, hu⟩
    exact hhd (by rw [← hu]; rfl)
  have heq : ∀ w : Bytes, seg ++ rooted slash segs ≠ slash :: w := by
    intro w h
    exact hhd (by rw [h]; rfl)
  have hnemp : seg ++ rooted slash segs ≠ [] := by simp [hne]
  cases hdo : isDot seg with
  | false =>
    have hd : seg ≠ [dot] ∧ seg ≠ [dot, dot] := by simpa [isDot] using hdo
    rw [hdo] at hor
    rw [removeDotSegmentsLoop, dif_neg hnemp, hor]
    simp only [Bool.false_eq_true, if_false, hpre, heq, hone', htwo', hd, false_and, or_self]
    rw [firstSegmentEnd_relative hne hsg]
    simp
  | true =>
    have hd : seg = [dot] ∨ seg = [dot, dot] := by simpa [isDot] using hdo
    rw [hdo, if_pos rfl] at hor
    rw [removeDotSegmentsLoop, dif_neg hnemp, hor]
    cases segs with
    | nil =>
      simp only [List.head?_nil, Option.map_none, hpre, heq, Bool.false_eq_true, if_false,
        hone', htwo', and_true, hd, if_true, removeDotSegmentsLoop_nil]
    | cons seg' segs' => simp

theorem removeDotSegments_no_dots (path : Bytes) : NoDots (removeDotSegments path) := by
  have hni : NoDots [] := by simp [NoDots, isDot]
  obtain ⟨seg, ss, rfl, hsg, hss⟩ := exists_append_rooted slash path
  rw [removeDotSegments]
  induction ss generalizing seg with
  | nil =>
    by_cases hne : seg = []
    · simpa [hne] using hni
    · rw [removeDotSegmentsLoop_relative hne hsg]
      split
      · exact hni
      · next hd => simpa [NoDots, splitOn_eq_singleton hsg] using hd
  | cons seg' ss ih =>
    obtain ⟨hsg', htl⟩ := forall_mem_cons.mp hss
    by_cases hne : seg = []
    · subst hne
      exact hni.removeDotSegmentsLoop hss
    · rw [removeDotSegmentsLoop_relative hne hsg]
      split
      · exact ih seg' hsg' htl
      · next hd =>
        have hout : NoDots seg := by simpa [NoDots, splitOn_eq_singleton hsg] using hd
        exact hout.removeDotSegmentsLoop hss

theorem length_removeLastSegment_le (out : Bytes) :
    (removeLastSegment out).length ≤ out.length := by
  rw [removeLastSegment]
  split
  · exact length_take_le' ..
  · exact Nat.zero_le _

theorem length_removeDotSegmentsLoop_rooted_le (hss : ∀ seg ∈ segs, slash ∉ seg) (out : Bytes) :
    (removeDotSegmentsLoop (rooted slash segs) out).length ≤
      (rooted slash segs).length + out.length := by
  induction segs generalizing out with
  | nil => simp
  | cons seg segs ih =>
    obtain ⟨hsg, htl⟩ := forall_mem_cons.mp hss
    have hend : ∀ out, (removeDotSegmentsLoop
        (if segs = [] then [slash] else rooted slash segs) out).length ≤
          1 + (rooted slash segs).length + out.length := by
      intro out
      split
      · rw [removeDotSegmentsLoop_slash, length_append, length_singleton]
        omega
      · have := ih htl out
        omega
    have hcn :
        (rooted slash (seg :: segs)).length = 1 + seg.length + (rooted slash segs).length := by
      simp only [rooted_cons, length_append, length_cons]
      omega
    rw [removeDotSegmentsLoop_cons hsg, hcn]
    split
    · have := hend out
      omega
    · split
      · have := hend (removeLastSegment out)
        have := length_removeLastSegment_le out
        omega
      · have := ih htl (out ++ slash :: seg)
        simp only [length_append, length_cons] at this
        omega

theorem length_removeDotSegments_le (path : Bytes) :
    (removeDotSegments path).length ≤ path.length := by
  obtain ⟨seg, ss, rfl, hsg, hss⟩ := exists_append_rooted slash path
  rw [removeDotSegments]
  induction ss generalizing seg with
  | nil =>
    by_cases hne : seg = []
    · simp [hne]
    · rw [removeDotSegmentsLoop_relative hne hsg]
      split <;> simp
  | cons seg' ss ih =>
    obtain ⟨hsg', htl⟩ := forall_mem_cons.mp hss
    by_cases hne : seg = []
    · subst hne
      simpa using length_removeDotSegmentsLoop_rooted_le hss []
    · rw [removeDotSegmentsLoop_relative hne hsg]
      split
      · have := ih seg' hsg' htl
        simp only [rooted_cons, length_append, length_cons] at this ⊢
        omega
      · have := length_removeDotSegmentsLoop_rooted_le hss ([] ++ seg)
        simp only [length_append, nil_append] at this ⊢
        omega

/-- The segments that are no dots and that no later `..` cancels, and how many `..` are
left over for what stands before them. A segment is judged by the text `f` reads it as. -/
def standing (f : Bytes → Bytes) : List Bytes → List Bytes × Nat
  | [] => ([], 0)
  | seg :: segs =>
    let (kept, pending) := standing f segs
    if f seg = [dot] then (kept, pending)
    else if f seg = [dot, dot] then (kept, pending + 1)
    else if pending = 0 then (seg :: kept, 0)
    else (kept, pending - 1)

/-- The empty segment that takes the place of a dot at the end of a path. -/
def dotEnd (segs : List Bytes) : List Bytes :=
  if segs.getLast?.any isDot then [[]] else []

theorem dotEnd_cons (seg : Bytes) (h : segs ≠ []) : dotEnd (seg :: segs) = dotEnd segs := by
  obtain ⟨seg', segs, rfl⟩ := exists_cons_of_ne_nil h
  simp [dotEnd, List.getLast?_cons_cons]

/-- The stack machine keeps the standing segments, and of its stack what the leftover
`..` do not pop. -/
theorem resolveDots_map (f : Bytes → Bytes) (stack segs : List Bytes) :
    resolveDots stack (segs.map f) =
      stack.take (stack.length - (standing f segs).2) ++ (standing f segs).1.map f ++
        dotEnd (segs.map f) := by
  induction segs generalizing stack with
  | nil => simp [resolveDots, standing, dotEnd]
  | cons seg segs ih =>
    rw [map_cons, resolveDots]
    by_cases hd : f seg = [dot]
    · have hstand : standing f (seg :: segs) = standing f segs := by simp [standing, hd]
      rw [if_pos hd, hstand]
      by_cases hs : segs = []
      · simp [hs, hd, standing, dotEnd, isDot]
      · rw [if_neg (by simpa using hs), ih, dotEnd_cons _ (by simpa using hs)]
    · by_cases hdd : f seg = [dot, dot]
      · have hstand : standing f (seg :: segs) =
            ((standing f segs).1, (standing f segs).2 + 1) := by simp [standing, hdd]
        rw [if_neg hd, if_pos hdd, hstand]
        by_cases hs : segs = []
        · simp [hs, hdd, standing, dotEnd, isDot, dropLast_eq_take]
        · rw [if_neg (by simpa using hs), ih, dotEnd_cons _ (by simpa using hs)]
          have htk : stack.dropLast.take (stack.dropLast.length - (standing f segs).2) =
              stack.take (stack.length - ((standing f segs).2 + 1)) := by
            rw [dropLast_eq_take, take_take, length_take]
            congr 1
            omega
          rw [htk]
      · rw [if_neg hd, if_neg hdd, ih]
        have hend : dotEnd (f seg :: segs.map f) = dotEnd (segs.map f) := by
          cases segs with
          | nil => simp [dotEnd, isDot, hd, hdd]
          | cons seg' segs => exact dotEnd_cons _ (by simp)
        rw [hend]
        by_cases hp : (standing f segs).2 = 0
        · have hstand : standing f (seg :: segs) = (seg :: (standing f segs).1, 0) := by
            simp [standing, hd, hdd, hp]
          have htk : (stack ++ [f seg]).take (stack.length + 1) = stack ++ [f seg] :=
            take_of_length_le (by simp)
          simp [hstand, hp, htk]
        · have hstand : standing f (seg :: segs) =
              ((standing f segs).1, (standing f segs).2 - 1) := by
            simp [standing, hd, hdd, hp]
          have htk : (stack ++ [f seg]).take ((stack ++ [f seg]).length - (standing f segs).2) =
                stack.take (stack.length - ((standing f segs).2 - 1)) := by
            rw [take_append_of_le_length (by simp; omega)]
            congr 1
            simp
            omega
          rw [hstand, htk]

theorem resolveDots_of_no_dots (h : ∀ seg ∈ segs, isDot seg = false)
    (stack : List Bytes) : resolveDots stack segs = stack ++ segs := by
  induction segs generalizing stack with
  | nil => simp [resolveDots]
  | cons seg segs ih =>
    have hsg : seg ≠ [dot] ∧ seg ≠ [dot, dot] := by
      simpa [isDot] using h seg mem_cons_self
    rw [resolveDots, if_neg hsg.1, if_neg hsg.2, ih (forall_mem_cons.mp h).2]
    simp

end Pingclair
