import Pingclair.Lib.AsciiCase
import Pingclair.Lib.Numerals
import Pingclair.Lib.Templates

/-!
# Text from the request

Where a configured text has both placeholders and the groups of a regular expression, one is filled
in first and the result is read again for the other: a `map` handler fills in groups first, a header
replacement and a rewrite placeholders.
-/

namespace Pingclair.Substitution

open ByteText AsciiCase Numerals Templates List Option

@[match_pattern] abbrev openBrace : UInt8 := 0x7B
@[match_pattern] abbrev closeBrace : UInt8 := 0x7D
@[match_pattern] abbrev dollar : UInt8 := 0x24

def wordMax : Nat := 18446744073709551615

def placeholderFamilies : List Bytes :=
  [ascii "http.request.header.", ascii "header.", ascii "http.request.uri.query.", ascii "query.",
    ascii "http.vars.", ascii "http.request.orig_uri.", ascii "http.matchers.file.", ascii "re.",
    ascii "err.", ascii "http.error.", ascii "labels.", ascii "http.request.host.labels."]

def placeholderNames : List Bytes :=
  [ascii "http.reverse_proxy.status_code", ascii "re", ascii "host", ascii "http.request.host",
    ascii "hostport", ascii "http.request.hostport", ascii "port", ascii "http.request.port",
    ascii "query", ascii "http.request.uri.query", ascii "?query", ascii "client_ip",
    ascii "http.request.client_ip", ascii "remote_host", ascii "http.request.remote.host",
    ascii "remote_port", ascii "http.request.remote.port", ascii "remote",
    ascii "http.request.remote", ascii "method", ascii "http.request.method", ascii "scheme",
    ascii "http.request.scheme", ascii "uri", ascii "http.request.uri", ascii "path",
    ascii "http.request.uri.path", ascii "dir", ascii "file"]

/-- Whether a part of the path is named: its directory, its file, or a segment by its index. -/
def isPathPart (suffix : Bytes) : Bool :=
  suffix == ascii "dir" || suffix == ascii "file" || (parseUnsigned wordMax suffix).isSome

def isPlaceholder (name : Bytes) : Bool :=
  placeholderFamilies.any (·.isPrefixOf name) || placeholderNames.contains name ||
    ((name.dropPrefix? (ascii "http.request.uri.path.")).or
      (name.dropPrefix? (ascii "path."))).any isPathPart

/-- What a placeholder becomes. A name that is not known is left as it was written. -/
def resolveSinglePlaceholder (value : Bytes → Bytes) (name : Bytes) : Bytes :=
  if isPlaceholder name then value name else openBrace :: name ++ [closeBrace]

/-- Reads on, behind an opening brace and the name so far if there is one. -/
def resolveFrom (value : Bytes → Bytes) : Option Bytes → Bytes → Bytes
  | none, [] => []
  | none, c :: text =>
    if c = openBrace then resolveFrom value (some []) text else c :: resolveFrom value none text
  | some name, [] => resolveSinglePlaceholder value name
  | some name, c :: text =>
    if c = closeBrace then resolveSinglePlaceholder value name ++ resolveFrom value none text
    else resolveFrom value (some (name ++ [c])) text

def resolveCaddyPlaceholders (value : Bytes → Bytes) (template : Bytes) : Bytes :=
  if template.contains openBrace then resolveFrom value none template else template

def placeholderPieces (name : Bytes) : List (Piece Bytes) :=
  if isPlaceholder name then [.hole name] else (openBrace :: name ++ [closeBrace]).map .byte

/-- The placeholders of a text, where only the written bytes are looked at. Data inside the braces
is part of the name. -/
def readPlaceholders : Option Bytes → List Atom → List (Piece Bytes)
  | none, [] => []
  | none, .written c :: rest =>
    if c = openBrace then readPlaceholders (some []) rest
    else .byte c :: readPlaceholders none rest
  | none, .data text :: rest => text.map .byte ++ readPlaceholders none rest
  | some name, [] => placeholderPieces name
  | some name, .written c :: rest =>
    if c = closeBrace then placeholderPieces name ++ readPlaceholders none rest
    else readPlaceholders (some (name ++ [c])) rest
  | some name, .data text :: rest => readPlaceholders (some (name ++ text)) rest

variable (value : Bytes → Bytes)

theorem fill_placeholderPieces (name : Bytes) :
    fill value (placeholderPieces name) = resolveSinglePlaceholder value name := by
  unfold placeholderPieces resolveSinglePlaceholder
  by_cases hn : isPlaceholder name = true
  · rw [if_pos hn, if_pos hn, fill_cons, fill_nil, append_nil]
    rfl
  · rw [if_neg hn, if_neg hn, fill_map_byte]

theorem resolveFrom_eq_fill (name : Option Bytes) (text : Bytes) :
    resolveFrom value name text = fill value (readPlaceholders name (text.map .written)) := by
  induction text generalizing name with
  | nil =>
    cases name with
    | none => rfl
    | some name => exact (fill_placeholderPieces value name).symm
  | cons c text ih =>
    cases name with
    | none =>
      simp only [resolveFrom, map_cons, readPlaceholders]
      by_cases hop : c = openBrace
      · rw [if_pos hop, if_pos hop, ih]
      · rw [if_neg hop, if_neg hop, ih]
        rfl
    | some name =>
      simp only [resolveFrom, map_cons, readPlaceholders]
      by_cases hcls : c = closeBrace
      · rw [if_pos hcls, if_pos hcls, fill_append, fill_placeholderPieces, ih]
      · rw [if_neg hcls, if_neg hcls, ih]

theorem resolveFrom_of_not_mem {value : Bytes → Bytes} {text : Bytes} (h : openBrace ∉ text) :
    resolveFrom value none text = text := by
  induction text with
  | nil => rfl
  | cons c text ih =>
    simp only [mem_cons, not_or] at h
    rw [resolveFrom, if_neg (Ne.symm h.1), ih h.2]

theorem resolveCaddyPlaceholders_eq_fill (text : Bytes) :
    resolveCaddyPlaceholders value text =
      fill value (readPlaceholders none (text.map .written)) := by
  rw [← resolveFrom_eq_fill]
  unfold resolveCaddyPlaceholders
  by_cases hbrace : text.contains openBrace = true
  · rw [if_pos hbrace]
  · rw [if_neg hbrace, resolveFrom_of_not_mem (by simpa using hbrace)]

inductive CaptureRef
  | number (n : Nat)
  | named (name : Bytes)
  deriving DecidableEq

def CaptureRef.ofName (name : Bytes) : CaptureRef :=
  match parseUnsigned wordMax name with
  | some n => .number n
  | none => .named name

/-- The texts of the groups. A group that does not exist has none. -/
abbrev Groups := CaptureRef → Bytes

def isCapLetter (b : UInt8) : Bool :=
  0x30 ≤ b && b ≤ 0x39 || 0x61 ≤ b && b ≤ 0x7A || 0x41 ≤ b && b ≤ 0x5A || b == 0x5F

def writtenWhile (p : UInt8 → Bool) : List Atom → Bytes
  | .written b :: rest => if p b then b :: writtenWhile p rest else []
  | _ => []

/-- What a dollar sign begins, and how much behind it belongs to that: another dollar sign escapes
it, and a reference is a name in braces or as long a name as there is. -/
def captureRef (rest : List Atom) : Option (Piece CaptureRef × Nat) :=
  if rest.head? = some (.written dollar) then some (.byte dollar, 1)
  else if rest.head? = some (.written openBrace) then
    let name := writtenWhile (· != closeBrace) rest.tail
    if rest.tail[name.length]? = some (.written closeBrace) then
      some (.hole (.ofName name), name.length + 2)
    else none
  else
    let name := writtenWhile isCapLetter rest
    if name.isEmpty then none else some (.hole (.ofName name), name.length)

/-- The references of a text, where only the written bytes are looked at. The count is of what
still belongs to the last reference. -/
def readReferences : Nat → List Atom → List (Piece CaptureRef)
  | _, [] => []
  | n + 1, _ :: rest => readReferences n rest
  | 0, .data text :: rest => text.map .byte ++ readReferences 0 rest
  | 0, .written c :: rest =>
    if c = dollar then
      match captureRef rest with
      | some (piece, n) => piece :: readReferences n rest
      | none => .byte c :: readReferences 0 rest
    else .byte c :: readReferences 0 rest

def expand (groups : Groups) (template : Bytes) : Bytes :=
  fill groups (readReferences 0 (template.map .written))

/-- A row of a `map`. A regular expression is what it captures in a text. -/
structure MapMapping where
  input : Option Bytes
  regex : Option (Bytes → Option Groups)
  outputs : List (Option Bytes)

structure MapPlan where
  source : Bytes
  destinations : List Bytes
  mappings : List MapMapping
  defaults : List Bytes

abbrev RequestVars := List (Bytes × Bytes)

def RequestVars.set (vars : RequestVars) (name value : Bytes) : RequestVars := (name, value) :: vars

def MapMapping.captures (mapping : MapMapping) (source : Bytes) : Option (Option Groups) :=
  match mapping.regex with
  | some regex => (regex source).map some
  | none => if mapping.input = some source then some none else none

/-- What a destination is assigned, before anything is filled in: the output of the first row that
applies and has one, or else the default. -/
def MapPlan.outputAt (plan : MapPlan) (source : Bytes) (index : Nat) :
    Option (Option Groups × Bytes) :=
  (plan.mappings.findSome? fun mapping =>
    (mapping.captures source).bind fun captures =>
      mapping.outputs[index]?.join.map fun output => (captures, output)).or
    (plan.defaults[index]?.map fun default => (none, default))

def assignFrom (given : Nat → RequestVars → Option Bytes) :
    Nat → List Bytes → RequestVars → RequestVars
  | _, [], vars => vars
  | index, destination :: rest, vars =>
    match given index vars with
    | some value => assignFrom given (index + 1) rest (vars.set destination value)
    | none => assignFrom given (index + 1) rest vars

def expandOutput : Option Groups → Bytes → Bytes
  | some groups, output => expand groups output
  | none, output => output

/-- The assignments of a `map` for a source text. `value` is what a placeholder stands for. -/
def MapPlan.applyTo (plan : MapPlan) (source : Bytes) (value : RequestVars → Bytes → Bytes) :
    RequestVars → RequestVars :=
  assignFrom (fun index vars => (plan.outputAt source index).map fun p =>
      resolveCaddyPlaceholders (value vars) (expandOutput p.1 p.2))
    0 plan.destinations

/-- A match in a text, from where to where, and its groups. -/
structure Match where
  start : Nat
  stop : Nat
  groups : Groups

abbrev Regex := Bytes → List Match

def replaceAllFrom (text : Bytes) (replacement : Groups → Bytes) : Nat → List Match → Bytes
  | last, [] => text.drop last
  | last, m :: rest =>
    (text.drop last).take (m.start - last) ++ replacement m.groups ++
      replaceAllFrom text replacement m.stop rest

def replaceAll (regex : Regex) (text : Bytes) (replacement : Groups → Bytes) : Bytes :=
  replaceAllFrom text replacement 0 (regex text)

structure HeaderReplacement where
  field : Bytes
  searchRegexp : Bytes
  replace : Bytes

def stripPathPrefix (path pre : Bytes) : Option Bytes :=
  if pre.length ≤ path.length && eqIgnoreCase (path.take pre.length) pre then
    some (path.drop pre.length)
  else none

def stripPathSuffix (path suffix : Bytes) : Option Bytes :=
  if suffix.length ≤ path.length &&
      eqIgnoreCase (path.drop (path.length - suffix.length)) suffix then
    some (path.take (path.length - suffix.length))
  else none

def rootedPath (path : Bytes) : Bytes := if path.head? = some slash then path else slash :: path

/-- Rewrites a URI and keeps its query, unless the new one has a query of its own. -/
def rewriteUri (current : Bytes) (pre suffix replace : Option Bytes) (regex : Option Regex)
    (regexReplace : Groups → Bytes) : Bytes :=
  let (path, query) := (splitOnce question current).getD (current, [])
  let stripped := ((pre.bind (stripPathPrefix path)).map rootedPath).getD path
  let cut := ((suffix.bind (stripPathSuffix stripped)).map fun kept =>
    if kept.isEmpty then [slash] else kept).getD stripped
  let replaced := replace.getD cut
  let matched := (regex.map fun regex => replaceAll regex replaced regexReplace).getD replaced
  let rewritten := rootedPath matched
  if rewritten.contains question || query.isEmpty then rewritten else rewritten ++ question :: query

structure RewriteRule where
  stripPrefix : Option Bytes
  stripSuffix : Option Bytes
  replace : Option Bytes
  regex : Option Regex
  regexReplace : Option Bytes

def applyRewrite (value : Bytes → Bytes) (rule : RewriteRule) (current : Bytes) : Bytes :=
  rewriteUri current (rule.stripPrefix.map (resolveCaddyPlaceholders value))
    (rule.stripSuffix.map (resolveCaddyPlaceholders value))
    (rule.replace.map (resolveCaddyPlaceholders value)) rule.regex fun groups =>
      expand groups ((rule.regexReplace.map (resolveCaddyPlaceholders value)).getD [])

end Pingclair.Substitution
