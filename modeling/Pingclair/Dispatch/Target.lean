import Pingclair.Lib.AsciiCase
import Pingclair.Lib.Utf8

/-!
# Request targets

The path and the query of a request, and the rewrites that handlers make: a prefix or a suffix
is cut off, the path is replaced or edited with a regular expression. The query stays, unless the
new path brings its own.

Reading a text as a target is left to the HTTP library.
-/

namespace Pingclair

open ByteText AsciiCase

structure Target where
  path : Utf8.Str
  query : Option Utf8.Str
  path_no_question : question ∉ path.bytes

structure TargetLib where
  parse : Utf8.Str → Option Target

namespace Target

theorem question_lt : question < 0x80 := by decide

def mark : Utf8.Str := ⟨[question], by decide⟩

def root : Utf8.Str := ⟨[slash], by decide⟩

def text (target : Target) : Utf8.Str :=
  match target.query with
  | some query => (target.path.append mark).append query
  | none => target.path

def pathPart (s : Utf8.Str) : Utf8.Str :=
  match s.splitOnce question question_lt with
  | some (path, _) => path
  | none => s

theorem pathPart_no_question (s : Utf8.Str) : question ∉ (pathPart s).bytes := by
  rw [pathPart, Utf8.Str.splitOnce]
  split
  · next p _ h =>
    split at h
    · simp at h
    · next hsp =>
      cases h
      exact (splitOnce_eq_some hsp).2
  · next h =>
    split at h
    · next hsp => exact splitOnce_eq_none hsp
    · simp at h

/-- A text read up to its first question mark as the path, the rest as the query. -/
def read (s : Utf8.Str) : Target where
  path := pathPart s
  query := (s.splitOnce question question_lt).map Prod.snd
  path_no_question := pathPart_no_question s

theorem bytes_pathPart (s : Utf8.Str) :
    (pathPart s).bytes = ((splitOnce question s.bytes).map Prod.fst).getD s.bytes := by
  rw [← s.bytes_splitOnce question_lt, pathPart]
  cases s.splitOnce question question_lt <;> rfl

theorem bytes_text (target : Target) :
    target.text.bytes = target.path.bytes ++
      (target.query.map fun q => question :: q.bytes).getD [] := by
  rw [text]
  cases target.query with
  | none => simp
  | some q => simp [Utf8.Str.append, mark]

theorem text_read (s : Utf8.Str) : (read s).text = s := by
  rw [Utf8.Str.ext_iff, bytes_text]
  have hsp := s.bytes_splitOnce question_lt
  simp only [read, bytes_pathPart, ← hsp]
  cases hpts : s.splitOnce question question_lt with
  | none => simp
  | some parts =>
    rw [hpts] at hsp
    simpa using (splitOnce_eq_some hsp.symm).1.symm

theorem pathPart_text (target : Target) : pathPart target.text = target.path := by
  rw [Utf8.Str.ext_iff, bytes_pathPart, bytes_text]
  cases target.query with
  | none => simp [splitOnce_of_not_mem target.path_no_question]
  | some q => simp [splitOnce_append target.path_no_question]

end Target

def stripPathPrefix (path pre : Utf8.Str) : Option Utf8.Str :=
  if pre.bytes.length ≤ path.bytes.length ∧
      eqIgnoreCase (path.bytes.take pre.bytes.length) pre.bytes then
    path.get? pre.bytes.length
  else none

def stripPathSuffix (path suffix : Utf8.Str) : Option Utf8.Str :=
  let cut := path.bytes.length - suffix.bytes.length
  if suffix.bytes.length ≤ path.bytes.length ∧
      eqIgnoreCase (path.bytes.drop cut) suffix.bytes then
    if h : Utf8.valid (path.bytes.take cut) = true then some ⟨path.bytes.take cut, h⟩ else none
  else none

def rootPath (path : Utf8.Str) : Utf8.Str :=
  if path.bytes.head? = some slash then path else Target.root.append path

/-- A target with its path rewritten. `regex` replaces all matches of an expression. -/
def rewriteUri (current : Utf8.Str) (stripPrefix stripSuffix replace : Option Utf8.Str)
    (regex : Option (Utf8.Str → Utf8.Str)) : Utf8.Str :=
  let (path, query) := (current.splitOnce question Target.question_lt).getD (current, ⟨[], rfl⟩)
  let rewritten := match stripPrefix.bind (stripPathPrefix path) with
    | some rest => rootPath rest
    | none => path
  let rewritten := match stripSuffix.bind (stripPathSuffix rewritten) with
    | some kept => if kept.bytes = [] then Target.root else kept
    | none => rewritten
  let rewritten := replace.getD rewritten
  let rewritten := match regex with
    | some replaceAll => replaceAll rewritten
    | none => rewritten
  let rewritten := rootPath rewritten
  if question ∈ rewritten.bytes ∨ query.bytes = [] then rewritten
  else (rewritten.append Target.mark).append query

end Pingclair
