import Pingclair.Http.HeaderMap
import Pingclair.Lib.IpAddr
import Pingclair.Lib.Numerals
import Pingclair.Routing.Router

/-!
# Leaf matchers

The matchers that look at something other than the path as a pattern: fields, method, query,
host, addresses, scheme, variables and files. Matchers with a regular expression record what its
groups captured in the request's variables.

Regular expressions, placeholders and the search for files are parameters.
-/

namespace Pingclair

open ByteText AsciiCase

inductive MatcherCondition where
  | existing
  | equals (expected : Bytes)
  | contains (substring : Bytes)
  | startsWith (text : Bytes)
  | endsWith (text : Bytes)
  | regex (pattern : Bytes)

structure Regex where
  isMatch : Bytes → Bool
  /-- What the groups captured in a text, the whole match first. -/
  captures : Bytes → Option (List (Option Bytes))
  captureNames : List (Option Bytes)

section

variable (regexes : Bytes → Option Regex)

def evaluateCondition (value : Option Bytes) : MatcherCondition → Bool
  | .existing => value.isSome
  | .equals expected => value.any (· == expected)
  | .contains substring => value.any fun v => v.tails.any (substring.isPrefixOf ·)
  | .startsWith text => value.any (text.isPrefixOf ·)
  | .endsWith text => value.any (text.isSuffixOf ·)
  | .regex pattern =>
    match regexes pattern with
    | some regex => value.any regex.isMatch
    | none => false

def ampersand : UInt8 := 0x26
def equalsSign : UInt8 := 0x3D

/-- One condition on a parameter of the query behind a path. -/
def queryMatches (path name : Bytes) (condition : MatcherCondition) : Bool :=
  match splitOnce question path with
  | none => false
  | some (_, query) =>
    (query.splitOn ampersand).any fun pair =>
      match splitOnce equalsSign pair with
      | none => false
      | some (key, value) => key == name && evaluateCondition regexes (some value) condition

/-- A query has a pair of a name and a value that meets a condition. -/
def HasParameter (query name : Bytes) (condition : MatcherCondition) : Prop :=
  ∃ value, equalsSign ∉ name ∧ name ++ equalsSign :: value ∈ query.splitOn ampersand ∧
    evaluateCondition regexes (some value) condition

variable {regexes}

theorem queryMatches_of_not_mem {path name : Bytes} {cond : MatcherCondition}
    (hp : question ∉ path) : queryMatches regexes path name cond = false := by
  rw [queryMatches, splitOnce_of_not_mem hp]

end

inductive LeafMatcher where
  | header (name : Bytes) (condition : MatcherCondition)
  | method (methods : List Bytes)
  | query (name : Bytes) (condition : MatcherCondition)
  | host (hosts : List Bytes)
  | remoteIp (ranges : IpAddr → Bool)
  | clientIp (ranges : IpAddr → Bool)
  | protocol (protocols : List Bytes)
  | vars (name : Bytes) (values : List Bytes)
  | pathRegexp (name : Option Bytes) (pattern : Bytes)
  | headerRegexp (name : Option Bytes) (field pattern : Bytes)
  | file (tryFiles : List Bytes) (root tryPolicy : Option Bytes) (splitPath : List Bytes)

structure RequestAddresses where
  clientIp : Option IpAddr
  remoteIp : Option IpAddr

/-- What leaves read of a request besides path and method. -/
structure RequestFacts (http : HttpLib) where
  headers : http.HeaderMap
  host : Bytes
  addresses : RequestAddresses
  protocol : Bytes

/-- The request's variables; `none` when nothing is visible. -/
abbrev Variables := Option (Bytes → Option Bytes)

structure MatcherLib (http : HttpLib) where
  regexes : Bytes → Option Regex
  resolvePlaceholder : Bytes → MatcherRequest (RequestFacts http) → Variables → Bytes
  evaluateFile : List Bytes → Option Bytes → Option Bytes → List Bytes →
    MatcherRequest (RequestFacts http) → Variables → MatcherVerdict × Variables

def insertCapture (name : Option Bytes) (vars : Bytes → Option Bytes) (key value : Bytes) :
    Bytes → Option Bytes :=
  let vars := match name with
    | some name => Function.update vars (ascii "re." ++ name ++ ascii "." ++ key) (some value)
    | none => vars
  Function.update vars (ascii "re." ++ key) (some value)

/-- Records the groups of a match, by index and by name; `none` when there is no match. -/
def recordRegexpCaptures (vars : Bytes → Option Bytes) (name : Option Bytes) (regex : Regex)
    (text : Bytes) : Option (Bytes → Option Bytes) :=
  (regex.captures text).map fun captures =>
    let vars := captures.zipIdx.foldl (fun vars (value, index) =>
      match value with
      | some value => insertCapture name vars (Numerals.decimal index) value
      | none => vars) vars
    regex.captureNames.zipIdx.foldl (fun vars (groupName, index) =>
      match groupName, captures[index]?.join with
      | some groupName, some value => insertCapture name vars groupName value
      | _, _ => vars) vars

def evaluateRegexp (regex : Option Regex) (text : Option Bytes) (name : Option Bytes)
    (vars : Variables) : MatcherVerdict × Variables :=
  match regex, text, vars with
  | some regex, some text, some visible =>
    match recordRegexpCaptures visible name regex text with
    | some recorded => (.matched, some recorded)
    | none => (.noMatch, vars)
  | _, _, _ => (.noMatch, vars)

/-- The placeholder a variable's name is, if it is one: a single pair of braces around it. -/
def placeholderName (name : Bytes) : Option Bytes :=
  ((name.dropPrefix? [0x7B]).bind (·.dropSuffix? [0x7D])).filter fun rest =>
    0x7B ∉ rest && 0x7D ∉ rest

section

variable {http : HttpLib} (lib : MatcherLib http)

def evaluateLeaf : LeafEvaluator LeafMatcher (RequestFacts http) Variables
  | .header name condition, request, vars =>
    let value := (http.get request.facts.headers name).bind http.toStr
    (boolVerdict (evaluateCondition lib.regexes value condition), vars)
  | .method methods, request, vars =>
    (boolVerdict (methods.any (eqIgnoreCase · request.method)), vars)
  | .query name condition, request, vars =>
    (boolVerdict (queryMatches lib.regexes request.path.bytes name condition), vars)
  | .host hosts, request, vars =>
    (boolVerdict (hosts.any (eqIgnoreCase · request.facts.host)), vars)
  | .remoteIp ranges, request, vars =>
    (boolVerdict (request.facts.addresses.remoteIp.any ranges), vars)
  | .clientIp ranges, request, vars =>
    (boolVerdict (request.facts.addresses.clientIp.any ranges), vars)
  | .protocol protocols, request, vars =>
    (boolVerdict (protocols.any (eqIgnoreCase · request.facts.protocol)), vars)
  | .vars name values, request, vars =>
    let value := match placeholderName name with
      | some placeholder => lib.resolvePlaceholder placeholder request vars
      | none => (vars.bind (· name)).getD []
    (boolVerdict (values.any (· == value)), vars)
  | .pathRegexp name pattern, request, vars =>
    evaluateRegexp (lib.regexes pattern) (some (Percent.decodeForMatching request.path.bytes)) name
      vars
  | .headerRegexp name field pattern, request, vars =>
    evaluateRegexp (lib.regexes pattern)
      ((http.get request.facts.headers field).bind http.toStr) name vars
  | .file tryFiles root tryPolicy splitPath, request, vars =>
    lib.evaluateFile tryFiles root tryPolicy splitPath request vars

end

end Pingclair
