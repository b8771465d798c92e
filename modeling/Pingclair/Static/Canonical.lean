import Pingclair.Lib.AsciiCase
import Pingclair.Path.DotSegments

/-!
# Canonical redirects

Where the file server sends a client that asks for a directory without a slash at the end, or for
a file with one. A client removes dot segments, takes a backslash for a slash and `//` for an
authority, so `location` leaves nothing of the kind in the path.
-/

namespace Pingclair.Canonical

open ByteText AsciiCase List

inductive Entry where
  | directory
  | file
  deriving DecidableEq

abbrev backslash : UInt8 := 0x5C

abbrev hash : UInt8 := 0x23

abbrev question : UInt8 := 0x3F

def isSkipped (segment : Bytes) : Bool :=
  segment = [] || segment = ascii "." || eqIgnoreCase segment (ascii "%2e")

def isParent (segment : Bytes) : Bool :=
  segment = ascii ".." || eqIgnoreCase segment (ascii ".%2e") ||
    eqIgnoreCase segment (ascii "%2e.") || eqIgnoreCase segment (ascii "%2e%2e")

def quoteByte (b : UInt8) : Bytes :=
  if b = backslash then ascii "%5C" else if b = hash then ascii "%23" else [b]

def pushSegment (target segment : Bytes) : Bytes :=
  if isSkipped segment then target
  else if isParent segment then removeLastSegment target
  else target ++ slash :: segment.flatMap quoteByte

def location (path : Bytes) (query : Option Bytes) (entry : Entry) : Bytes :=
  let target := (path.splitOn slash).foldl pushSegment []
  let target := if entry = .directory ∨ target = [] then target ++ [slash] else target
  target ++ query.elim [] (question :: ·)

def splitQuery (uri : Bytes) : Bytes × Option Bytes :=
  match splitOnce question uri with
  | some (path, query) => (path, some query)
  | none => (uri, none)

def redirect (originalUri : Bytes) (entry : Entry) : Bytes :=
  location (splitQuery originalUri).1 (splitQuery originalUri).2 entry

/-- A dot, as it is or in its escape. -/
def IsDot (s : Bytes) : Prop := fold s ∈ [ascii ".", ascii "%2e"]

/-- Neither empty nor a dot segment. -/
structure Stays (segment : Bytes) : Prop where
  ne_nil : segment ≠ []
  not_dot : ¬ IsDot segment
  not_parent : ∀ s t, IsDot s → IsDot t → segment ≠ s ++ t

theorem fold_eq_iff {s t : Bytes} (ht : t.all (· < 0x41) = true) : fold s = t ↔ s = t := by
  induction t generalizing s with
  | nil => simp [fold]
  | cons c t ih =>
    rw [all_cons, Bool.and_eq_true, decide_eq_true_iff] at ht
    obtain ⟨hc, ht⟩ := ht
    cases s with
    | nil => simp
    | cons b s => rw [fold_cons, List.cons.injEq, List.cons.injEq, lower_eq_iff hc, ih ht]

variable {segment : Bytes}

theorem isSkipped_iff : isSkipped segment = true ↔ segment = [] ∨ IsDot segment := by
  have hd : fold segment = ascii "." ↔ segment = ascii "." := fold_eq_iff (by decide)
  simp [isSkipped, IsDot, hd, show fold (ascii "%2e") = ascii "%2e" by decide, or_assoc]

theorem isParent_iff : isParent segment = true ↔ ∃ s t, IsDot s ∧ IsDot t ∧ segment = s ++ t := by
  have hforms : isParent segment = true ↔ ∃ a ∈ [ascii ".", ascii "%2e"],
      ∃ b ∈ [ascii ".", ascii "%2e"], fold segment = a ++ b := by
    have hdots : fold segment = ascii ".." ↔ segment = ascii ".." := fold_eq_iff (by decide)
    have hfo : fold (ascii ".%2e") = ascii ".%2e" ∧ fold (ascii "%2e.") = ascii "%2e." ∧
        fold (ascii "%2e%2e") = ascii "%2e%2e" := by decide
    simp only [isParent, Bool.or_eq_true, decide_eq_true_iff, eqIgnoreCase_iff, hfo, ← hdots,
      or_assoc, mem_cons, not_mem_nil, or_false, exists_eq_or_imp, exists_eq_left]
    rfl
  rw [hforms]
  constructor
  · rintro ⟨a, ha, b, hb, heq⟩
    obtain ⟨s, t, rfl, rfl, rfl⟩ := map_eq_append_iff.mp heq
    exact ⟨s, t, ha, hb, rfl⟩
  · rintro ⟨s, t, hs, ht, rfl⟩
    exact ⟨fold s, hs, fold t, ht, map_append⟩

theorem stays_iff : Stays segment ↔ isSkipped segment = false ∧ isParent segment = false := by
  rw [Bool.eq_false_iff, Bool.eq_false_iff, Ne, Ne, isSkipped_iff, isParent_iff]
  constructor
  · intro h
    refine ⟨fun hskp => hskp.elim h.ne_nil h.not_dot, ?_⟩
    rintro ⟨s, t, hs, ht, heq⟩
    exact h.not_parent s t hs ht heq
  · rintro ⟨hskp, hpt⟩
    exact ⟨fun h => hskp (.inl h), fun h => hskp (.inr h),
      fun s t hs ht heq => hpt ⟨s, t, hs, ht, heq⟩⟩

theorem flatMap_quoteByte (hbsl : backslash ∉ segment) (hhash : hash ∉ segment) :
    segment.flatMap quoteByte = segment := by
  rw [flatMap_congr (g := fun b => [b]), flatMap_singleton']
  intro b hb
  have hb' : b ≠ backslash ∧ b ≠ hash := ⟨fun h => hbsl (h ▸ hb), fun h => hhash (h ▸ hb)⟩
  simp [quoteByte, hb']

theorem mem_flatMap_quoteByte {b : UInt8} (h : b ∈ segment.flatMap quoteByte) :
    b ≠ backslash ∧ b ≠ hash ∧ (b = slash ∨ b = question → b ∈ segment) := by
  have hescapes : (ascii "%5C" ++ ascii "%23").all
      (· ∉ [backslash, hash, slash, question]) = true := by decide
  have hescape (hmem : b ∈ ascii "%5C" ++ ascii "%23") :
      b ∉ [backslash, hash, slash, question] := by
    simpa using all_eq_true.mp hescapes b hmem
  simp only [mem_cons, not_mem_nil, or_false, not_or] at hescape
  obtain ⟨c, hc, hb⟩ := mem_flatMap.mp h
  rw [quoteByte] at hb
  split_ifs at hb with hbsl hhash
  · have hb := hescape (mem_append_left _ hb)
    exact ⟨hb.1, hb.2.1, fun h => absurd h (not_or.mpr hb.2.2)⟩
  · have hb := hescape (mem_append_right _ hb)
    exact ⟨hb.1, hb.2.1, fun h => absurd h (not_or.mpr hb.2.2)⟩
  · rw [mem_singleton.mp hb]
    exact ⟨hbsl, hhash, fun _ => hc⟩

/-- What is pushed of a segment that stays also stays. -/
theorem Stays.quoted (h : Stays segment) : Stays (segment.flatMap quoteByte) := by
  by_cases hqt : backslash ∉ segment ∧ hash ∉ segment
  · rwa [flatMap_quoteByte hqt.1 hqt.2]
  -- an escape has a digit that no dot segment has
  have hdg : ∃ b ∈ segment.flatMap quoteByte, b = 0x35 ∨ b = 0x33 := by
    by_cases hbsl : backslash ∈ segment
    · exact ⟨0x35, mem_flatMap.mpr ⟨_, hbsl, by decide⟩, .inl rfl⟩
    · have hhash : hash ∈ segment := by tauto
      exact ⟨0x33, mem_flatMap.mpr ⟨_, hhash, by decide⟩, .inr rfl⟩
  obtain ⟨b, hb, hb'⟩ := hdg
  have hnot {s : Bytes} (hs : IsDot s) : b ∉ s := by
    intro hmem
    have hlower : lower b ∈ fold s := mem_map_of_mem hmem
    simp only [IsDot, mem_cons, not_mem_nil, or_false] at hs
    revert hlower
    rcases hs with hs | hs <;> rcases hb' with rfl | rfl <;> rw [hs] <;> decide
  refine ⟨ne_nil_of_mem hb, fun hdot => hnot hdot hb, fun s t hs ht heq => ?_⟩
  rw [heq, mem_append] at hb
  exact hb.elim (hnot hs) (hnot ht)

structure Pushed (segment : Bytes) : Prop extends Stays segment where
  slash : slash ∉ segment
  backslash : backslash ∉ segment
  hash : hash ∉ segment

/-- The invariant of the loop: slashes, each before a segment that stays. The target has a
question mark only if the path has one. -/
def Cleaned (path target : Bytes) : Prop :=
  ∃ segs, target = rooted slash segs ∧ (∀ seg ∈ segs, Pushed seg) ∧
    ∀ seg ∈ segs, question ∈ seg → question ∈ path

theorem Cleaned.pushSegment {path target : Bytes} (h : Cleaned path target)
    (hsegment : segment ∈ path.splitOn slash) : Cleaned path (pushSegment target segment) := by
  obtain ⟨ss, rfl, hpsh, hqm⟩ := h
  rw [Canonical.pushSegment]
  split_ifs with hskp hpt
  · exact ⟨ss, rfl, hpsh, hqm⟩
  · rw [removeLastSegment_rooted fun seg hsg => (hpsh seg hsg).slash]
    exact ⟨ss.dropLast, rfl, fun seg hsg => hpsh seg (mem_of_mem_dropLast hsg),
      fun seg hsg => hqm seg (mem_of_mem_dropLast hsg)⟩
  · have hstays : Stays segment := stays_iff.mpr ⟨by simpa using hskp, by simpa using hpt⟩
    refine ⟨ss ++ [segment.flatMap quoteByte], by simp, ?_, ?_⟩
    · rw [forall_mem_append, forall_mem_singleton]
      exact ⟨hpsh, hstays.quoted,
        fun h => not_mem_of_mem_splitOn hsegment ((mem_flatMap_quoteByte h).2.2 (.inl rfl)),
        fun h => (mem_flatMap_quoteByte h).1 rfl, fun h => (mem_flatMap_quoteByte h).2.1 rfl⟩
    · rw [forall_mem_append, forall_mem_singleton]
      exact ⟨hqm, fun h => mem_of_mem_splitOn hsegment ((mem_flatMap_quoteByte h).2.2 (.inr rfl))⟩

theorem cleaned_foldl (path : Bytes) : Cleaned path ((path.splitOn slash).foldl pushSegment []) :=
  List.foldlRecOn _ _ ⟨[], rfl, by simp, by simp⟩ fun _ h _ hsg => h.pushSegment hsg

/-- Segments that stay are pushed as they are. -/
theorem foldl_pushSegment {segs : List Bytes} (h : ∀ seg ∈ segs, Pushed seg) (target : Bytes) :
    segs.foldl pushSegment target = target ++ rooted slash segs := by
  induction segs generalizing target with
  | nil => simp
  | cons seg segs ih =>
    obtain ⟨hsg, hss⟩ := forall_mem_cons.mp h
    obtain ⟨hskp, hpt⟩ := stays_iff.mp hsg.toStays
    rw [foldl_cons, ih hss, pushSegment, hskp, hpt, flatMap_quoteByte hsg.backslash hsg.hash]
    simp

/-- A path that names no authority and that no client changes. -/
structure Final (target : Bytes) : Prop where
  start : ∃ rest, target = slash :: rest ∧ rest.head? ≠ some slash
  segments : ∃ segs, (∀ seg ∈ segs, Stays seg ∧ slash ∉ seg) ∧
    (target = rooted slash segs ∨ target = rooted slash segs ++ [slash])
  backslash : backslash ∉ target
  hash : hash ∉ target

theorem rooted_eq_nil_iff {segs : List Bytes} : rooted slash segs = [] ↔ segs = [] := by
  cases segs <;> simp

def closing (entry : Entry) (segs : List Bytes) : Bytes :=
  if entry = .directory ∨ segs = [] then [slash] else []

theorem location_eq {path : Bytes} {segs : List Bytes}
    (h : (path.splitOn slash).foldl pushSegment [] = rooted slash segs) (q : Option Bytes)
    (entry : Entry) : location path q entry =
      rooted slash segs ++ closing entry segs ++ q.elim [] (question :: ·) := by
  rw [location, h, closing]
  simp only [rooted_eq_nil_iff]
  split_ifs <;> simp

section

variable {segs : List Bytes} (h : ∀ seg ∈ segs, Pushed seg) (entry : Entry)

include h

theorem final_closing : Final (rooted slash segs ++ closing entry segs) := by
  have hclosing : closing entry segs = [] ∨ closing entry segs = [slash] := by
    rw [closing]
    split_ifs <;> simp
  have hn {b : UInt8} (hb : b ≠ slash) (hss : ∀ seg ∈ segs, b ∉ seg) :
      b ∉ rooted slash segs ++ closing entry segs := by
    rw [mem_append, not_or, not_mem_rooted hb]
    refine ⟨hss, fun hmem => ?_⟩
    rcases hclosing with hni | hsl
    · simp [hni] at hmem
    · exact hb (by simpa [hsl] using hmem)
  refine ⟨?_, ⟨segs, fun seg hsg => ⟨(h seg hsg).toStays, (h seg hsg).slash⟩, ?_⟩,
    hn (by decide) fun seg hsg => (h seg hsg).backslash,
    hn (by decide) fun seg hsg => (h seg hsg).hash⟩
  · cases segs with
    | nil => exact ⟨[], by simp [closing], by simp⟩
    | cons seg segs =>
      have hsg := h seg mem_cons_self
      obtain ⟨b, seg, rfl⟩ := exists_cons_of_ne_nil hsg.ne_nil
      refine ⟨_, rfl, fun hb => hsg.slash ?_⟩
      rw [Option.some.inj hb]
      exact mem_cons_self
  · exact hclosing.imp (fun hni => by rw [hni, append_nil]) fun hsl => by rw [hsl]

theorem location_closing : location (rooted slash segs ++ closing entry segs) none entry =
    rooted slash segs ++ closing entry segs := by
  have hsl : ∀ seg ∈ segs, slash ∉ seg := fun seg hsg => (h seg hsg).slash
  have hfo : ([] :: segs).foldl pushSegment [] = rooted slash segs := by
    rw [foldl_cons, foldl_pushSegment h]
    rfl
  refine (location_eq ?_ none entry).trans (append_nil _)
  rw [closing]
  split_ifs
  · -- the slash at the end is an empty segment, which is skipped
    have hroo : rooted slash segs ++ [slash] = rooted slash (segs ++ [[]]) := by simp
    have hsl' : ∀ seg ∈ segs ++ [[]], slash ∉ seg := forall_mem_append.mpr ⟨hsl, by simp⟩
    rw [hroo, splitOn_rooted hsl', ← cons_append, foldl_append, hfo]
    rfl
  · rw [append_nil, splitOn_rooted hsl, hfo]

end

theorem splitQuery_append {target : Bytes} (h : question ∉ target) (q : Option Bytes) :
    splitQuery (target ++ q.elim [] (question :: ·)) = (target, q) := by
  cases q with
  | none => simp [splitQuery, splitOnce_of_not_mem h]
  | some q => simp [splitQuery, splitOnce_append h]

theorem question_notMem_splitQuery (uri : Bytes) : question ∉ (splitQuery uri).1 := by
  rw [splitQuery]
  cases h : splitOnce question uri with
  | none => exact splitOnce_eq_none h
  | some parts => exact (splitOnce_eq_some h).2

/-- A redirect goes to a path of its own server, with the query of the request, and is not
redirected again. -/
theorem redirect_final (originalUri : Bytes) (entry : Entry) :
    ∃ target, splitQuery (redirect originalUri entry) = (target, (splitQuery originalUri).2) ∧
      Final target ∧ location target none entry = target := by
  obtain ⟨ss, hss, hpsh, hqm⟩ := cleaned_foldl (splitQuery originalUri).1
  refine ⟨rooted slash ss ++ closing entry ss, ?_, final_closing hpsh entry,
    location_closing hpsh entry⟩
  rw [redirect, location_eq hss]
  apply splitQuery_append
  rw [mem_append, not_or, not_mem_rooted (by decide)]
  constructor
  · exact fun seg hsg hmem => question_notMem_splitQuery originalUri (hqm seg hsg hmem)
  · rw [closing]
    split_ifs <;> simp [show question ≠ slash by decide]

end Pingclair.Canonical
