import Pingclair.Caddyfile.SiteAddress
import Pingclair.Forwarding.TrustedProxy
import Pingclair.Lib.KeyedFold
import Pingclair.Routing.Checks
import Pingclair.Routing.Leaves

/-!
# Matcher definitions

A named matcher is defined by one line or by a block of lines. Each line is read on its own; the
lines of a block are then merged into one matcher, and the compiler turns that into what the router
evaluates.

Regular expressions, networks and the upper case of a text are parameters, and so is the order in
which a hash map yields its values.
-/

namespace Pingclair.Caddyfile

open ByteText AsciiCase Fallible

inductive HeaderCondition where
  | existing
  | equals (value : Bytes)
  | contains (value : Bytes)
  | startsWith (value : Bytes)
  | endsWith (value : Bytes)
  | regex (pattern : Bytes)
  deriving DecidableEq

structure HeaderMatcher where
  name : Bytes
  condition : HeaderCondition
  deriving DecidableEq

structure QueryMatcher where
  name : Bytes
  condition : HeaderCondition
  deriving DecidableEq

inductive HttpMethod where
  | get
  | post
  | put
  | delete
  | patch
  | head
  | options
  deriving DecidableEq

inductive AstMatcher where
  | path (patterns : List Bytes)
  | header (matcher : HeaderMatcher)
  | method (methods : List HttpMethod)
  | query (matcher : QueryMatcher)
  | host (hosts : List Bytes)
  | remoteIp (ranges : List Bytes)
  | clientIp (ranges : List Bytes)
  | protocol (protocols : List Bytes)
  | vars (name : Bytes) (values : List Bytes)
  | pathRegexp (name : Option Bytes) (pattern : Bytes)
  | headerRegexp (name : Option Bytes) (field pattern : Bytes)
  | file (tryFiles : List Bytes) (root tryPolicy : Option Bytes) (splitPath : List Bytes)
  | and (left right : AstMatcher)
  | or (left right : AstMatcher)
  | not (inner : AstMatcher)
  | named (name : Bytes)
  deriving DecidableEq

structure Tools where
  newRegex : Bytes → Except Bytes Regex
  parseNet : Bytes → Option IpNet
  toUppercase : Bytes → Bytes

/-- A directive with its arguments and its block; `quoted` when its first argument is a quoted
text. -/
structure Directive where
  name : Bytes
  args : List Bytes
  block : Option (List Directive)
  quoted : Bool

def expectOneArgument (d : Directive) : Except AdapterError Bytes :=
  match d.args with
  | [arg] => .ok arg
  | args => .error (.argumentCount d.name 1 args.length)

structure FileMatcher where
  tryFiles : List Bytes
  root : Option Bytes
  tryPolicy : Option Bytes
  splitPath : List Bytes

def tryPolicies : List Bytes :=
  [ascii "first_exist", ascii "first_exist_fallback", ascii "largest_size", ascii "smallest_size",
    ascii "most_recently_modified"]

def FileMatcher.option (m : FileMatcher) (sub : Directive) : Except AdapterError FileMatcher :=
  if sub.name = ascii "root" then do
    let root ← expectOneArgument sub
    .ok { m with root := some root }
  else if sub.name = ascii "try_files" then
    if sub.args = [] then .error (.argumentCount (ascii "file try_files") 1 0)
    else .ok { m with tryFiles := m.tryFiles ++ sub.args }
  else if sub.name = ascii "try_policy" then do
    let policy ← expectOneArgument sub
    if tryPolicies.contains policy then .ok { m with tryPolicy := some policy }
    else .error (.invalidArgument (ascii "file try_policy") policy)
  else if sub.name = ascii "split_path" then
    if sub.args = [] then .error (.argumentCount (ascii "file split_path") 1 0)
    else .ok { m with splitPath := m.splitPath ++ sub.args }
  else .error (.unknownDirective (ascii "file: " ++ sub.name))

def parseFile (d : Directive) : Except AdapterError AstMatcher := do
  let m ← (d.block.getD []).foldlM FileMatcher.option ⟨d.args, none, none, []⟩
  -- without candidates, the request's own path is the candidate
  let tryFiles := if m.tryFiles = [] then [ascii "\x7bpath\x7d"] else m.tryFiles
  .ok (.file tryFiles m.root m.tryPolicy m.splitPath)

def parseHttpMethod (tools : Tools) (arg : Bytes) : Except AdapterError HttpMethod :=
  let upper := tools.toUppercase arg
  if upper = ascii "GET" then .ok .get
  else if upper = ascii "POST" then .ok .post
  else if upper = ascii "PUT" then .ok .put
  else if upper = ascii "DELETE" then .ok .delete
  else if upper = ascii "PATCH" then .ok .patch
  else if upper = ascii "HEAD" then .ok .head
  else if upper = ascii "OPTIONS" then .ok .options
  else .error (.invalidArgument (ascii "method")
    (ascii "unknown HTTP method `" ++ upper ++ ascii "`"))

def parseMethod (tools : Tools) (d : Directive) : Except AdapterError AstMatcher :=
  (d.args.mapM (parseHttpMethod tools)).map .method

def parseHost (d : Directive) : Except AdapterError AstMatcher :=
  if d.args = [] then .error (.argumentCount (ascii "host") 1 0) else .ok (.host d.args)

def parseQuery (d : Directive) : Except AdapterError AstMatcher :=
  match d.args with
  | [] => .error (.argumentCount (ascii "query") 1 0)
  | [spec] =>
    if spec = [] then
      .error (.unsupportedFeature (ascii "query")
        (ascii "the empty-query matcher (`query \"\"`) is not implemented yet"))
    else
      match splitOnce equalsSign spec with
      | none => .error (.invalidArgument (ascii "query")
          (ascii "expected `key=value`, got `" ++ spec ++ ascii "`"))
      | some (name, value) =>
        .ok (.query ⟨name, if value = [star] then .existing else .equals value⟩)
  | args => .error (.argumentCount (ascii "query") 1 args.length)

def parseProtocol (d : Directive) : Except AdapterError AstMatcher :=
  if d.args = [] then .error (.argumentCount (ascii "protocol") 1 0)
  else if d.args.any (·.contains slash) then
    .error (.unsupportedFeature (ascii "protocol")
      (ascii "versioned protocol matchers (http/2+, grpc) are not implemented yet"))
  else .ok (.protocol d.args)

def privateRanges : List Bytes :=
  [ascii "192.168.0.0/16", ascii "172.16.0.0/12", ascii "10.0.0.0/8", ascii "127.0.0.1/8",
    ascii "fd00::/8", ascii "::1"]

def expandRanges (args : List Bytes) : List Bytes :=
  args.flatMap fun arg => if arg = ascii "private_ranges" then privateRanges else [arg]

def parseIp (of : List Bytes → AstMatcher) (d : Directive) : Except AdapterError AstMatcher :=
  if d.args = [] then .error (.argumentCount d.name 1 0) else .ok (of (expandRanges d.args))

def bang : UInt8 := 0x21

def headerCondition (value : Bytes) : HeaderCondition :=
  if value = [star] then .existing
  else
    match value.dropPrefix? [star], value.dropSuffix? [star] with
    | some tail, some _ => .contains tail.dropLast
    | some tail, none => .endsWith tail
    | none, some front => .startsWith front
    | none, none => .equals value

def headerField (raw : Bytes) : Bytes × Bool :=
  match raw.dropPrefix? [bang] with
  | some name => (name, true)
  | none => (raw, false)

def headerMatcher (raw : Bytes) (condition : HeaderCondition) : AstMatcher :=
  let header := .header ⟨(headerField raw).1, condition⟩
  if (headerField raw).2 then .not header else header

def parseHeader (d : Directive) : Except AdapterError AstMatcher :=
  match d.args with
  | [raw] => .ok (headerMatcher raw .existing)
  | [raw, value] => .ok (headerMatcher raw (headerCondition value))
  | [] => .error (.argumentCount (ascii "header") 1 0)
  | args => .error (.argumentCount (ascii "header") 2 args.length)

def checkRegexp (tools : Tools) (directive pattern : Bytes) : Except AdapterError Unit :=
  match tools.newRegex pattern with
  | .ok _ => .ok ()
  | .error reason => .error (.invalidArgument directive
      (ascii "`" ++ pattern ++ ascii "` is not a valid regular expression: " ++ reason))

def parseHeaderRegexp (tools : Tools) (d : Directive) : Except AdapterError AstMatcher :=
  match d.args with
  | [field, pattern] => do
    checkRegexp tools (ascii "header_regexp") pattern
    .ok (.headerRegexp none field pattern)
  -- a pattern with a name is not looked at here
  | [name, field, pattern] => .ok (.headerRegexp (some name) field pattern)
  | args => .error (.argumentCount (ascii "header_regexp") 2 args.length)

def parsePathRegexp (tools : Tools) (d : Directive) : Except AdapterError AstMatcher :=
  if d.block.isSome then .error (.blockNotAllowed (ascii "path_regexp"))
  else
    match d.args with
    | [pattern] => do
      checkRegexp tools (ascii "path_regexp") pattern
      .ok (.pathRegexp none pattern)
    | [name, pattern] => do
      checkRegexp tools (ascii "path_regexp") pattern
      .ok (.pathRegexp (some name) pattern)
    | args => .error (.argumentCount (ascii "path_regexp") 2 args.length)

def parseVars (d : Directive) : Except AdapterError AstMatcher :=
  match d.args with
  | [] => .error (.invalidArgument (ascii "vars")
      (ascii "malformed vars matcher: expected a field name"))
  | [_] => .error (.invalidArgument (ascii "vars")
      (ascii "malformed vars matcher: expected at least one value"))
  | name :: values => .ok (.vars name values)

def isKnownMatcher (name : Bytes) : Bool :=
  [ascii "expression", ascii "url_pattern", ascii "vars_regexp", ascii "tls"].contains name

/-! ### Blocks -/

def emDash : Bytes := [0xE2, 0x80, 0x94]

structure SeenRegexps where
  pathRegexps : Nat
  headerFields : List Bytes

def SeenRegexps.add (block : Bytes) (seen : SeenRegexps) :
    AstMatcher → Except AdapterError SeenRegexps
  | .pathRegexp _ _ =>
    if 0 < seen.pathRegexps then
      .error (.invalidArgument (ascii "path_regexp") (ascii "`" ++ block ++
        ascii ("` holds more than one path_regexp; Caddy keeps only the last one and this proxy " ++
          "will not guess between them ") ++ emDash ++
        ascii " combine the alternatives into one pattern, for example `^/a|b$`"))
    else .ok { seen with pathRegexps := seen.pathRegexps + 1 }
  | .headerRegexp _ field _ =>
    if seen.headerFields.contains field then
      .error (.invalidArgument (ascii "header_regexp") (ascii "`" ++ block ++
        ascii "` holds more than one header_regexp for field `" ++ field ++
        ascii "`; combine the alternatives into one pattern"))
    else .ok { seen with headerFields := seen.headerFields ++ [field] }
  | _ => .ok seen

def refuseDuplicateRegexpMatchers (block : Bytes) (matchers : List AstMatcher) :
    Except AdapterError Unit :=
  (matchers.foldlM (SeenRegexps.add block) ⟨0, []⟩).map fun _ => ()

def conjunction : List AstMatcher → Option AstMatcher
  | [] => none
  | m :: matchers => some (matchers.foldl .and m)

def disjunction : List AstMatcher → Option AstMatcher
  | [] => none
  | m :: matchers => some (matchers.foldl .or m)

def parseNot (parse : Directive → Except AdapterError AstMatcher) (d : Directive) :
    Except AdapterError AstMatcher :=
  match d.block with
  | some block => do
    let matchers ← block.mapM parse
    match conjunction matchers with
    | none => .error (.invalidArgument (ascii "not") (ascii "empty matcher block"))
    | some inner => do
      refuseDuplicateRegexpMatchers (ascii "not") matchers
      .ok (.not inner)
  | none =>
    match d.args with
    | [] => .error (.argumentCount (ascii "not") 1 0)
    | name :: args => (parse ⟨name, args, none, false⟩).map .not

def maxMatcherNesting : Nat := 32

/-- Reads one line; `levels` is how many levels of nesting are left, this one included. -/
def parseSingleMatcherAt (tools : Tools) : Nat → Directive → Except AdapterError AstMatcher
  | 0, d => .error (.invalidArgument d.name
      (ascii "matcher nesting exceeds the maximum depth of " ++ Numerals.decimal maxMatcherNesting))
  | levels + 1, d =>
    if d.name = ascii "path" then .ok (.path d.args)
    else if d.name = ascii "file" then parseFile d
    else if d.name = ascii "not" then parseNot (parseSingleMatcherAt tools levels) d
    else if d.name = ascii "method" then parseMethod tools d
    else if d.name = ascii "host" then parseHost d
    else if d.name = ascii "query" then parseQuery d
    else if d.name = ascii "protocol" then parseProtocol d
    else if d.name = ascii "remote_ip" then parseIp .remoteIp d
    else if d.name = ascii "client_ip" then parseIp .clientIp d
    else if d.name = ascii "header" then parseHeader d
    else if d.name = ascii "header_regexp" then parseHeaderRegexp tools d
    else if d.name = ascii "path_regexp" then parsePathRegexp tools d
    else if d.name = ascii "vars" then parseVars d
    else if isKnownMatcher d.name then
      .error (.unsupportedFeature (d.name ++ ascii " matcher")
        (ascii "Pingclair does not implement this matcher yet"))
    else .error (.unknownDirective (ascii "matcher: " ++ d.name))

def parseSingleMatcher (tools : Tools) (d : Directive) : Except AdapterError AstMatcher :=
  parseSingleMatcherAt tools (maxMatcherNesting + 1) d

structure Groups where
  headers : AList fun _ : Bytes => List HeaderMatcher
  queries : AList fun _ : Bytes => List QueryMatcher
  paths : List Bytes
  methods : List HttpMethod
  hosts : List Bytes
  remoteIps : List Bytes
  clientIps : List Bytes
  others : List AstMatcher

namespace Groups

def start : Groups := ⟨∅, ∅, [], [], [], [], [], []⟩

def add (g : Groups) : AstMatcher → Groups
  | .header header => { g with headers := KeyedFold.push HeaderMatcher.name g.headers header }
  | .query query => { g with queries := KeyedFold.push QueryMatcher.name g.queries query }
  | .path patterns => { g with paths := g.paths ++ patterns }
  | .method methods => { g with methods := g.methods ++ methods }
  | .host hosts => { g with hosts := g.hosts ++ hosts }
  | .remoteIp ranges => { g with remoteIps := g.remoteIps ++ ranges }
  | .clientIp ranges => { g with clientIps := g.clientIps ++ ranges }
  | other => { g with others := g.others ++ [other] }

end Groups

structure HashOrder where
  values : {α : Type} → List α → List α
  perm : ∀ {α : Type} (l : List α), (values l).Perm l

def partOf {α : Type} (of : List α → AstMatcher) (values : List α) : List AstMatcher :=
  if values = [] then [] else [of values]

/-- The parts of a block's matcher; `none` when a group has no matcher, which is a panic. -/
def Groups.parts (order : HashOrder) (g : Groups) : Option (List AstMatcher) := do
  let headers ← (order.values (g.headers.entries.map Sigma.snd)).mapM fun row =>
    disjunction (row.map .header)
  let queries ← (order.values (g.queries.entries.map Sigma.snd)).mapM fun row =>
    disjunction (row.map .query)
  some (headers ++ queries ++ partOf .path g.paths ++ partOf .method g.methods ++
    partOf .host g.hosts ++ partOf .remoteIp g.remoteIps ++ partOf .clientIp g.clientIps ++
    g.others)

/-- Merges the lines of a block; `none` is a panic. -/
def mergeMatcherSet (order : HashOrder) (matchers : List AstMatcher) : Option AstMatcher :=
  ((matchers.foldl Groups.add .start).parts order).bind conjunction

def parseLines (tools : Tools) (name : Bytes) (lines : List Directive) :
    Except AdapterError (List AstMatcher) := do
  let matchers ← lines.mapM (parseSingleMatcher tools)
  if matchers = [] then .error (.invalidArgument name (ascii "Empty matcher block"))
  else do
    refuseDuplicateRegexpMatchers name matchers
    .ok matchers

/-- Reads the definition of a named matcher; `none` is a panic. -/
def parseMatcherDefinition (tools : Tools) (order : HashOrder) (d : Directive) :
    Option (Except AdapterError AstMatcher) :=
  match d.block with
  | some lines =>
    match parseLines tools d.name lines with
    | .error e => some (.error e)
    | .ok matchers => (mergeMatcherSet order matchers).map .ok
  | none =>
    match d.args with
    | [] => some (.error (.argumentCount d.name 1 0))
    | name :: args =>
      if d.quoted then
        some (.error (.unsupportedFeature (ascii "expression matcher")
          (ascii "Pingclair does not implement this matcher yet")))
      else some (parseSingleMatcher tools ⟨name, args, none, false⟩)

def HeaderCondition.compile : HeaderCondition → MatcherCondition
  | .existing => .existing
  | .equals value => .equals value
  | .contains value => .contains value
  | .startsWith value => .startsWith value
  | .endsWith value => .endsWith value
  | .regex pattern => .regex pattern

/-- A query parameter is compared for equality, or only looked for. -/
def HeaderCondition.compileQuery : HeaderCondition → MatcherCondition
  | .equals value => .equals value
  | _ => .existing

def HttpMethod.name : HttpMethod → Bytes
  | .get => ascii "GET"
  | .post => ascii "POST"
  | .put => ascii "PUT"
  | .delete => ascii "DELETE"
  | .patch => ascii "PATCH"
  | .head => ascii "HEAD"
  | .options => ascii "OPTIONS"

def parseIpRange (tools : Tools) (entry : Bytes) : Option IpNet :=
  (tools.parseNet entry).or ((IpAddr.parse entry).map fun address => ⟨(· = address)⟩)

def parseIpRanges (tools : Tools) (entries : List Bytes) : Except Bytes (List IpNet) :=
  entries.mapM fun entry => Fallible.okOr entry (parseIpRange tools entry)

structure InvalidRoute where
  message : Bytes
  deriving DecidableEq

def compileIpRanges (tools : Tools) (matcher : Bytes) (ranges : List Bytes) :
    Except InvalidRoute (IpAddr → Bool) :=
  match parseIpRanges tools ranges with
  | .ok networks => .ok fun address => networks.any (·.contains address)
  | .error entry => .error ⟨matcher ++ ascii " matcher: invalid IP address or CIDR range `" ++
      entry ++ ascii "`"⟩

def maxMatcherDepth : Nat := 32

/-- Compiles a matcher, with the definitions that names stand for; `levels` is how many levels of
nesting are left, this one included. -/
def compileMatcher (tools : Tools) (matchers : Bytes → Option AstMatcher) :
    Nat → AstMatcher → Except InvalidRoute (Matcher LeafMatcher)
  | 0, _ => .error ⟨ascii "matcher nesting exceeds the maximum depth of " ++
      Numerals.decimal maxMatcherDepth⟩
  | levels + 1, .named name =>
    match matchers name with
    | none => .error ⟨ascii "matcher `" ++ (name.dropPrefix? [0x40]).getD name ++
        ascii ("` is not defined; define it or fix the name (an unresolved matcher would " ++
          "otherwise match every request)")⟩
    | some inner => compileMatcher tools matchers levels inner
  | _ + 1, .path patterns => .ok (.path patterns)
  | _ + 1, .header m => .ok (.leaf (.header m.name m.condition.compile))
  | _ + 1, .method methods => .ok (.leaf (.method (methods.map HttpMethod.name)))
  | _ + 1, .query m => .ok (.leaf (.query m.name m.condition.compileQuery))
  | _ + 1, .host hosts => .ok (.leaf (.host hosts))
  | _ + 1, .remoteIp ranges =>
    (compileIpRanges tools (ascii "remote_ip") ranges).map fun ranges => .leaf (.remoteIp ranges)
  | _ + 1, .clientIp ranges =>
    (compileIpRanges tools (ascii "client_ip") ranges).map fun ranges => .leaf (.clientIp ranges)
  | _ + 1, .protocol protocols => .ok (.leaf (.protocol protocols))
  | _ + 1, .vars name values => .ok (.leaf (.vars name values))
  | _ + 1, .pathRegexp name pattern => .ok (.leaf (.pathRegexp name pattern))
  | _ + 1, .headerRegexp name field pattern => .ok (.leaf (.headerRegexp name field pattern))
  | _ + 1, .file tryFiles root tryPolicy splitPath =>
    .ok (.leaf (.file tryFiles root tryPolicy splitPath))
  | levels + 1, .and left right => do
    let left ← compileMatcher tools matchers levels left
    let right ← compileMatcher tools matchers levels right
    .ok (.and left right)
  | levels + 1, .or left right => do
    let left ← compileMatcher tools matchers levels left
    let right ← compileMatcher tools matchers levels right
    .ok (.or left right)
  | levels + 1, .not inner => (compileMatcher tools matchers levels inner).map .not

section Meaning

variable {http : HttpLib} (lib : MatcherLib http) (tools : Tools)
  (request : MatcherRequest (RequestFacts http))

/-- A line asks for a field whose value is the text, holds it, begins or ends with it, or fits the
expression; or for any value. -/
def HeaderMatcher.holds (m : HeaderMatcher) : Bool :=
  ((http.get request.facts.headers m.name).bind http.toStr).any fun value =>
    match m.condition with
    | .existing => true
    | .equals text => value = text
    | .contains text => text <:+: value
    | .startsWith text => text <+: value
    | .endsWith text => text <:+ value
    | .regex pattern => (lib.regexes pattern).any (·.isMatch value)

def QueryMatcher.holds (path : Bytes) (m : QueryMatcher) : Bool :=
  (splitOnce question path).any fun parts => (parts.2.splitOn ampersand).any fun pair =>
    (splitOnce equalsSign pair).any fun (name, value) => name == m.name &&
      match m.condition with
      | .equals expected => value == expected
      | _ => true

def HttpMethod.holds (method : HttpMethod) : Bool := eqIgnoreCase method.name request.method

def inRanges (ranges : List Bytes) (address : IpAddr) : Bool :=
  ranges.any fun entry => (parseIpRange tools entry).any (·.contains address)

/-- A matcher as it runs on a request. Names are the compiler's business; the lines of a block hold
none. -/
def AstMatcher.check : AstMatcher → Check Variables
  | .path patterns => .test
      ((patterns.map PathPattern.of).any (·.matches (Percent.decodeForMatching request.path.bytes)))
  | .header m => .test (m.holds lib request)
  | .method methods => .test (methods.any (·.holds request))
  | .query m => .test (m.holds request.path.bytes)
  | .host hosts => evaluateLeaf lib (.host hosts) request
  | .remoteIp ranges => evaluateLeaf lib (.remoteIp (inRanges tools ranges)) request
  | .clientIp ranges => evaluateLeaf lib (.clientIp (inRanges tools ranges)) request
  | .protocol protocols => evaluateLeaf lib (.protocol protocols) request
  | .vars name values => evaluateLeaf lib (.vars name values) request
  | .pathRegexp name pattern => evaluateLeaf lib (.pathRegexp name pattern) request
  | .headerRegexp name field pattern => evaluateLeaf lib (.headerRegexp name field pattern) request
  | .file tryFiles root tryPolicy splitPath =>
    evaluateLeaf lib (.file tryFiles root tryPolicy splitPath) request
  | .and left right => .both left.check right.check
  | .or left right => .either left.check right.check
  | .not inner => .negate inner.check
  | .named _ => .test false

def AstMatcher.NoNames : AstMatcher → Prop
  | .and left right => left.NoNames ∧ right.NoNames
  | .or left right => left.NoNames ∧ right.NoNames
  | .not inner => inner.NoNames
  | .named _ => False
  | _ => True

variable {lib tools request}

theorem inRanges_of_parseIpRanges {rs : List Bytes} {networks : List IpNet}
    (h : parseIpRanges tools rs = .ok networks) :
    inRanges tools rs = fun address => networks.any (·.contains address) := by
  funext address
  induction rs generalizing networks with
  | nil =>
    cases h
    rfl
  | cons entry rs ih =>
    rw [parseIpRanges, List.mapM_cons, bind_eq_ok] at h
    obtain ⟨network, hnet, h⟩ := h
    obtain ⟨rest, hrest, h⟩ := bind_eq_ok.mp h
    cases h
    rw [inRanges, List.any_cons, okOr_eq_ok.mp hnet, List.any_cons, ← ih hrest]
    rfl

theorem compileIpRanges_eq_ok {m : Bytes} {ranges : List Bytes} {compiled : IpAddr → Bool}
    (h : compileIpRanges tools m ranges = .ok compiled) : compiled = inRanges tools ranges := by
  rw [compileIpRanges] at h
  split at h
  · next networks hps =>
    cases h
    exact (inRanges_of_parseIpRanges hps).symm
  · cases h

theorem evaluateCondition_compile (m : HeaderMatcher) :
    evaluateCondition lib.regexes ((http.get request.facts.headers m.name).bind http.toStr)
      m.condition.compile = m.holds lib request := by
  rw [HeaderMatcher.holds]
  cases (http.get request.facts.headers m.name).bind http.toStr with
  | none =>
    cases m.condition with
    | regex pattern =>
      rw [HeaderCondition.compile, evaluateCondition]
      cases lib.regexes pattern <;> rfl
    | _ => rfl
  | some value =>
    cases m.condition with
    | existing => rfl
    | regex pattern =>
      cases hregex : lib.regexes pattern <;>
        simp [HeaderCondition.compile, evaluateCondition, hregex]
    | _ =>
      rw [Bool.eq_iff_iff]
      simp [HeaderCondition.compile, evaluateCondition, List.infix_iff_prefix_suffix, and_comm]

theorem queryMatches_compileQuery (path : Bytes) (m : QueryMatcher) :
    queryMatches lib.regexes path m.name m.condition.compileQuery = m.holds path := by
  have hpair (pair : Bytes) : (match splitOnce equalsSign pair with
      | none => false
      | some (key, value) => key == m.name &&
        evaluateCondition lib.regexes (some value) m.condition.compileQuery) =
      (splitOnce equalsSign pair).any fun (name, value) => name == m.name &&
        match m.condition with
        | .equals expected => value == expected
        | _ => true := by
    cases splitOnce equalsSign pair with
    | none => rfl
    | some parts => cases m.condition <;> simp [HeaderCondition.compileQuery, evaluateCondition]
  rw [queryMatches, QueryMatcher.holds]
  cases splitOnce question path with
  | none => rfl
  | some parts => exact congrArg (List.any (parts.2.splitOn ampersand)) (funext hpair)

/-- The router evaluates what a matcher compiles to as the matcher says. -/
theorem evaluateNode_compileMatcher {ms : Bytes → Option AstMatcher} {levels : Nat}
    {m : AstMatcher} {core : Matcher LeafMatcher} (hns : m.NoNames)
    (h : compileMatcher tools ms levels m = .ok core) :
    evaluateNode (evaluateLeaf lib) request (MatcherNode.compile core) =
      m.check lib tools request := by
  induction levels generalizing m core with
  | zero => cases h
  | succ levels ih =>
    cases m with
    | named name => exact absurd hns id
    | header m =>
      cases h
      exact congrArg Check.test (evaluateCondition_compile m)
    | query m =>
      cases h
      exact congrArg Check.test (queryMatches_compileQuery request.path.bytes m)
    | method methods =>
      cases h
      exact congrArg Check.test List.any_map
    | remoteIp rs | clientIp rs =>
      obtain ⟨c, hcmp, rfl⟩ := map_eq_ok.mp h
      rw [compileIpRanges_eq_ok hcmp]
      rfl
    | and l r =>
      obtain ⟨l', hlf, h⟩ := bind_eq_ok.mp h
      obtain ⟨r', hrt, h⟩ := bind_eq_ok.mp h
      cases h
      exact congrArg₂ Check.both (ih hns.1 hlf) (ih hns.2 hrt)
    | or l r =>
      obtain ⟨l', hlf, h⟩ := bind_eq_ok.mp h
      obtain ⟨r', hrt, h⟩ := bind_eq_ok.mp h
      cases h
      exact congrArg₂ Check.either (ih hns.1 hlf) (ih hns.2 hrt)
    | not i =>
      obtain ⟨i', hin, rfl⟩ := map_eq_ok.mp h
      exact congrArg Check.negate (ih (m := i) hns hin)
    -- the others do not ask the compiler for anything
    | _ =>
      cases h
      rfl

end Meaning

end Pingclair.Caddyfile
