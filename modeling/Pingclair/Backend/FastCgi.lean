import Pingclair.Lib.Numerals
import Pingclair.Lib.SortedMap
import Pingclair.Path.Filenames

/-!
# The environment of a FastCGI request

A FastCGI responder is told by variables which script to run: the request path is split behind a
delimiter such as `.php`, the part up to there names the script and the rest is the path info.

Maps are lists of entries sorted by key. What other libraries and the file system answer is a
parameter.
-/

namespace Pingclair.FastCgi

open ByteText AsciiCase Numerals Percent List SortedMap

inductive HttpVersion where
  | http2
  | http3
  | other
  deriving DecidableEq

structure Request where
  path : Bytes
  query : Option Bytes
  uri : Bytes
  uriAuthority : Option Bytes
  method : Bytes
  version : HttpVersion
  headers : List (Bytes × List Bytes)

structure EnvironmentInput where
  request : Request
  remoteIp : Bytes
  remotePort : Option UInt16
  scheme : Bytes
  originalUri : Bytes
  requestVars : Bytes → Option Bytes

structure TransportConfig where
  root : Option Bytes
  splitPath : List Bytes
  env : List (Bytes × Bytes)
  resolveRootSymlink : Bool

structure CgiLib where
  /-- Resolves the symbolic links of a path; `none` when that fails. -/
  canonicalize : Bytes → Option Bytes
  resolveCaddyPlaceholders : EnvironmentInput → Bytes → Bytes
  authorityPort : Bytes → Option UInt16
  toStr : Bytes → Option Bytes
  /-- Whether a field of the request must not be passed on. -/
  blocks : Request → Bytes → Bool
  foldCookies : List Bytes → Bytes
  serverSoftware : Bytes

def occurrence (path needle : Bytes) : Option Nat :=
  (List.range (path.length - needle.length + 1)).find? fun index =>
    eqIgnoreCase ((path.drop index).take needle.length) needle

def splitPosition (path : Bytes) (splitPath : List Bytes) : Option Nat :=
  splitPath.findSome? fun split =>
    if split = [] ∨ path.length < split.length then none
    else (occurrence path split).map (· + split.length)

def trimEndMatches (pattern s : Bytes) : Bytes :=
  match s.dropSuffix? pattern with
  | some rest => if rest.length < s.length then trimEndMatches pattern rest else s
  | none => s
termination_by s.length

def pushPath (path component : Bytes) : Bytes :=
  if path = [] ∨ path.getLast? = some slash then path ++ component else path ++ slash :: component

/-- The file below the root that a path names, or the root when it names none. -/
def joinRoot (root path : Bytes) : Bytes :=
  ((resolveUnderRoot [] path).map fun names => names.foldl pushPath root).getD root

def Request.header (lib : CgiLib) (request : Request) (name : Bytes) : Option Bytes :=
  ((SortedMap.find? name request.headers).bind List.head?).bind lib.toStr

def requestAuthority (lib : CgiLib) (request : Request) : Bytes :=
  ((request.uriAuthority).or (request.header lib (ascii "host"))).getD []

def authorityHost (authority : Bytes) : Bytes :=
  match authority.dropPrefix? [0x5B] with
  | some bracketed => ((splitOnce 0x5D bracketed).map Prod.fst).getD authority
  | none =>
    if 1 < authority.count 0x3A then authority
    else
      match splitOnce 0x3A authority with
      | some (host, port) =>
        if port ≠ [] ∧ port.all fun b => (digitValue b).isSome then host else authority
      | none => authority

def documentRoot (lib : CgiLib) (config : TransportConfig) : Option Bytes :=
  let root := config.root.getD (ascii ".")
  if config.resolveRootSymlink then lib.canonicalize root else some root

def pathInfo (input : EnvironmentInput) (config : TransportConfig) : Bytes :=
  let path := input.request.path
  let rest := match splitPosition path config.splitPath with
    | some position => path.drop position
    | none => []
  if rest = [] then (input.requestVars (ascii "http.matchers.file.remainder")).getD [] else rest

def documentUri (input : EnvironmentInput) (config : TransportConfig) : Bytes :=
  match splitPosition input.request.path config.splitPath with
  | some position => input.request.path.take position
  | none => input.request.path

def scriptName (input : EnvironmentInput) (config : TransportConfig) : Bytes :=
  let info := pathInfo input config
  let name := if info = [] then input.request.path else trimEndMatches info input.request.path
  if name.head? = some slash then name else slash :: name

def serverProtocol : HttpVersion → Bytes
  | .http2 => ascii "HTTP/2.0"
  | .http3 => ascii "HTTP/3.0"
  | .other => ascii "HTTP/1.1"

def requestVariables (lib : CgiLib) (input : EnvironmentInput) : List (Bytes × Bytes) :=
  let request := input.request
  let authority := requestAuthority lib request
  let port := (lib.authorityPort authority).getD (if input.scheme = ascii "https" then 443 else 80)
  [(ascii "QUERY_STRING", request.query.getD []),
    (ascii "REMOTE_ADDR", input.remoteIp),
    (ascii "REMOTE_HOST", input.remoteIp),
    (ascii "REMOTE_PORT", (input.remotePort.map fun port => decimal port.toNat).getD []),
    (ascii "REMOTE_IDENT", []),
    (ascii "REMOTE_USER", (input.requestVars (ascii "http.auth.user.id")).getD []),
    (ascii "REQUEST_METHOD", request.method),
    (ascii "REQUEST_SCHEME", input.scheme),
    (ascii "SERVER_NAME", authorityHost authority),
    (ascii "SERVER_PORT", decimal port.toNat),
    (ascii "SERVER_PROTOCOL", serverProtocol request.version),
    (ascii "SERVER_SOFTWARE", lib.serverSoftware)]

def optionalVariables (input : EnvironmentInput) (config : TransportConfig) (root : Bytes) :
    List (Bytes × Bytes) :=
  let info := pathInfo input config
  (if info = [] then [] else [(ascii "PATH_TRANSLATED", joinRoot root info)]) ++
    if input.scheme = ascii "https" then [(ascii "HTTPS", ascii "on")] else []

def scriptVariables (lib : CgiLib) (input : EnvironmentInput) (config : TransportConfig)
    (root : Bytes) : List (Bytes × Bytes) :=
  let name := scriptName input config
  [(ascii "DOCUMENT_ROOT", root),
    (ascii "DOCUMENT_URI", documentUri input config),
    (ascii "HTTP_HOST", requestAuthority lib input.request),
    (ascii "REQUEST_URI", if input.originalUri = [] then input.request.uri else input.originalUri),
    (ascii "SCRIPT_FILENAME", joinRoot root name),
    (ascii "SCRIPT_NAME", name)]

def headerVariable (name : Bytes) : Bytes :=
  ascii "HTTP_" ++ name.map fun b =>
    if b = 0x2D then 0x5F else if 0x61 ≤ b && b ≤ 0x7A then b - 0x20 else b

def headerVariables (lib : CgiLib) (request : Request) : List (Bytes × Bytes) :=
  request.headers.filterMap fun field =>
    if field.1 ∈ [ascii "host", ascii "content-length", ascii "transfer-encoding",
        ascii "trailer"] ∨ 0x5F ∈ field.1 then none
    else if lib.blocks request field.1 then none
    else
      let values := field.2.filterMap lib.toStr
      let joined :=
        if field.1 = ascii "cookie" then lib.foldCookies values
        else (ascii ", ").intercalate values
      some (headerVariable field.1, joined)

def gatewayVariables (lib : CgiLib) (input : EnvironmentInput) (config : TransportConfig) :
    List (Bytes × Bytes) :=
  [(ascii "AUTH_TYPE", []),
    (ascii "CONTENT_TYPE", (input.request.header lib (ascii "content-type")).getD []),
    (ascii "GATEWAY_INTERFACE", ascii "CGI/1.1"),
    (ascii "PATH_INFO", pathInfo input config)]

def assignments (lib : CgiLib) (input : EnvironmentInput) (config : TransportConfig)
    (root : Bytes) : List (Bytes × Bytes) :=
  gatewayVariables lib input config ++ requestVariables lib input ++
  scriptVariables lib input config root ++ optionalVariables input config root ++
  (config.env.map fun entry => (entry.1, lib.resolveCaddyPlaceholders input entry.2)) ++
  headerVariables lib input.request

def buildEnvironment (lib : CgiLib) (input : EnvironmentInput) (config : TransportConfig) :
    Option (List (Bytes × Bytes)) :=
  (documentRoot lib config).map fun root =>
    SortedMap.insertAll (assignments lib input config root) []

def OccursAt (path needle : Bytes) (index : Nat) : Prop :=
  needle ≠ [] ∧ index + needle.length ≤ path.length ∧
    fold ((path.drop index).take needle.length) = fold needle

/-- The end of the first occurrence of the first delimiter that occurs. -/
def FirstSplit (path : Bytes) (splitPath : List Bytes) (position : Nat) : Prop :=
  ∃ front needle back index, splitPath = front ++ needle :: back ∧
    (∀ split ∈ front, ∀ i, ¬OccursAt path split i) ∧ OccursAt path needle index ∧
      (∀ i < index, ¬OccursAt path needle i) ∧ position = index + needle.length

variable {path key : Bytes} {position : Nat}

theorem occurrence_eq_some_iff {needle : Bytes} (hne : needle ≠ [])
    (hle : needle.length ≤ path.length) {idx : Nat} :
    occurrence path needle = some idx ↔
      OccursAt path needle idx ∧ ∀ i < idx, ¬OccursAt path needle i := by
  have hocc (i : Nat) : OccursAt path needle i ↔ i < path.length - needle.length + 1 ∧
      eqIgnoreCase ((path.drop i).take needle.length) needle = true := by
    rw [eqIgnoreCase_iff]
    constructor
    · rintro ⟨-, hi, hfo⟩
      exact ⟨by omega, hfo⟩
    · rintro ⟨hi, hfo⟩
      exact ⟨hne, by omega, hfo⟩
  rw [occurrence, List.find?_range_eq_some]
  simp only [hocc, mem_range, Bool.not_eq_true', not_and, Bool.not_eq_true]
  constructor
  · rintro ⟨hfd, hlt, hb⟩
    exact ⟨⟨hlt, hfd⟩, fun i hi _ => hb i hi⟩
  · rintro ⟨⟨hlt, hfd⟩, hb⟩
    exact ⟨hfd, hlt, fun i hi => hb i hi (by omega)⟩

theorem occurrence_eq_none {needle : Bytes} (hle : needle.length ≤ path.length)
    (h : occurrence path needle = none) (i : Nat) : ¬OccursAt path needle i := by
  rintro ⟨-, hi, hfo⟩
  rw [occurrence, List.find?_eq_none] at h
  exact h i (mem_range.mpr (by omega)) (eqIgnoreCase_iff.mpr hfo)

theorem splitPosition_eq_some_iff {splitPath : List Bytes} :
    splitPosition path splitPath = some position ↔ FirstSplit path splitPath position := by
  rw [splitPosition, List.findSome?_eq_some_iff]
  constructor
  · rintro ⟨front, needle, back, rfl, hneedle, hfrt⟩
    split at hneedle
    · simp at hneedle
    · next hsize =>
      rw [not_or, not_lt] at hsize
      obtain ⟨idx, hidx, rfl⟩ := Option.map_eq_some_iff.mp hneedle
      obtain ⟨hocc, hbef⟩ := (occurrence_eq_some_iff hsize.1 hsize.2).mp hidx
      refine ⟨front, needle, back, idx, rfl, fun split hsp i hi => ?_, hocc, hbef, rfl⟩
      have hnone := hfrt split hsp
      have hlen := hi.2.1
      rw [if_neg (not_or.mpr ⟨hi.1, by omega⟩), Option.map_eq_none_iff] at hnone
      exact occurrence_eq_none (by omega) hnone i hi
  · rintro ⟨front, needle, back, idx, rfl, hfrt, hocc, hbef, rfl⟩
    have hlen := hocc.2.1
    refine ⟨front, needle, back, rfl, ?_, fun split hsp => ?_⟩
    · rw [if_neg (not_or.mpr ⟨hocc.1, by omega⟩),
        (occurrence_eq_some_iff hocc.1 (by omega)).mpr ⟨hocc, hbef⟩, Option.map_some]
    · split
      · rfl
      · next hsize =>
        rw [not_or, not_lt] at hsize
        cases hfd : occurrence path split with
        | none => rfl
        | some i =>
          exact absurd ((occurrence_eq_some_iff hsize.1 hsize.2).mp hfd).1 (hfrt split hsp i)

theorem FirstSplit.bounds {splitPath : List Bytes} {pos : Nat} (h : FirstSplit path splitPath pos) :
    0 < pos ∧ pos ≤ path.length := by
  obtain ⟨_, n, _, i, -, -, ⟨hne, hle, -⟩, -, rfl⟩ := h
  have := length_pos_iff.mpr hne
  omega

theorem trimEndMatches_append {pattern : Bytes} (hne : pattern ≠ []) (s : Bytes) :
    trimEndMatches pattern (s ++ pattern) = trimEndMatches pattern s := by
  have hp := length_pos_iff.mpr hne
  rw [trimEndMatches, dropSuffix?_eq_some.mpr rfl]
  exact if_pos (by simp; omega)

theorem trimEndMatches_of_not_suffix {pattern s : Bytes} (h : ¬pattern <:+ s) :
    trimEndMatches pattern s = s := by
  rw [trimEndMatches]
  split
  · next rest hrest => exact absurd ⟨rest, (dropSuffix?_eq_some.mp hrest).symm⟩ h
  · rfl

theorem trimEndMatches_prefix (pattern s : Bytes) : trimEndMatches pattern s <+: s := by
  induction s using trimEndMatches.induct pattern with
  | case1 s rest hrest hlt ih =>
    rw [trimEndMatches, hrest]
    simp only [hlt, if_true]
    exact ih.trans ⟨pattern, (dropSuffix?_eq_some.mp hrest).symm⟩
  | case2 s rest hrest hlt =>
    rw [trimEndMatches, hrest]
    simp [hlt]
  | case3 s hnone =>
    rw [trimEndMatches, hnone]

/-! ### The variables of the script -/

variable {lib : CgiLib} {input : EnvironmentInput} {config : TransportConfig}

def splitVariables : List Bytes :=
  [ascii "PATH_INFO", ascii "DOCUMENT_URI", ascii "SCRIPT_FILENAME", ascii "SCRIPT_NAME"]

theorem not_mem_headerVariables (hk : key ∈ splitVariables) :
    key ∉ (headerVariables lib input.request).map Prod.fst := by
  intro h
  obtain ⟨pair, hpa, rfl⟩ := mem_map.mp h
  obtain ⟨field, -, hfld⟩ := mem_filterMap.mp hpa
  -- every variable of a field begins with `HTTP_`
  have hhttp : pair.1.take 5 = ascii "HTTP_" := by
    split at hfld
    · simp at hfld
    · split at hfld
      · simp at hfld
      · cases hfld
        rfl
  have hn : ∀ key ∈ splitVariables, key.take 5 ≠ ascii "HTTP_" := by decide
  exact hn _ hk hhttp

theorem not_mem_requestVariables (hk : key ∈ splitVariables) :
    key ∉ (requestVariables lib input).map Prod.fst := by
  have hn : ∀ key ∈ splitVariables, key ∉ [ascii "QUERY_STRING", ascii "REMOTE_ADDR",
      ascii "REMOTE_HOST", ascii "REMOTE_PORT", ascii "REMOTE_IDENT", ascii "REMOTE_USER",
      ascii "REQUEST_METHOD", ascii "REQUEST_SCHEME", ascii "SERVER_NAME", ascii "SERVER_PORT",
      ascii "SERVER_PROTOCOL", ascii "SERVER_SOFTWARE"] := by decide
  exact hn key hk

theorem not_mem_optionalVariables {root : Bytes} (hk : key ∈ splitVariables) :
    key ∉ (optionalVariables input config root).map Prod.fst := by
  have hn : ∀ key ∈ splitVariables, key ≠ ascii "PATH_TRANSLATED" ∧ key ≠ ascii "HTTPS" := by
    decide
  obtain ⟨htranslated, hhs⟩ := hn key hk
  rw [optionalVariables]
  split <;> split <;> simp [htranslated, hhs]

section

variable (henv : ∀ key ∈ splitVariables, key ∉ config.env.map Prod.fst) (root : Bytes)

include henv

/-- No variable of the split is set after those of the script. -/
theorem find?_assignments {key : Bytes} (hk : key ∈ splitVariables) :
    find? key (insertAll (assignments lib input config root) []) =
      find? key (insertAll (scriptVariables lib input config root)
        (insertAll (requestVariables lib input)
          (insertAll (gatewayVariables lib input config) []))) := by
  have henv' : key ∉ (config.env.map fun entry =>
      (entry.1, lib.resolveCaddyPlaceholders input entry.2)).map Prod.fst := by
    rw [map_map]
    exact henv key hk
  rw [assignments, insertAll_append, find?_insertAll_of_not_mem (not_mem_headerVariables hk),
    insertAll_append, find?_insertAll_of_not_mem henv', insertAll_append, find?_insertAll_of_not_mem
    (not_mem_optionalVariables hk), insertAll_append, insertAll_append]

theorem find?_pathInfo : find? (ascii "PATH_INFO")
    (insertAll (assignments lib input config root) []) = some (pathInfo input config) := by
  have hscr : ascii "PATH_INFO" ∉ (scriptVariables lib input config root).map Prod.fst := by
    show ascii "PATH_INFO" ∉ [ascii "DOCUMENT_ROOT", ascii "DOCUMENT_URI", ascii "HTTP_HOST",
      ascii "REQUEST_URI", ascii "SCRIPT_FILENAME", ascii "SCRIPT_NAME"]
    decide
  rw [find?_assignments henv root (by decide), find?_insertAll_of_not_mem hscr,
    find?_insertAll_of_not_mem (not_mem_requestVariables (by decide))]
  exact find?_insertAll_split [_, _, _] [] rfl (by simp) _

theorem find?_documentUri : find? (ascii "DOCUMENT_URI")
    (insertAll (assignments lib input config root) []) = some (documentUri input config) := by
  rw [find?_assignments henv root (by decide)]
  refine find?_insertAll_split [_] [_, _, _, _] rfl ?_ _
  show ascii "DOCUMENT_URI" ∉ [ascii "HTTP_HOST", ascii "REQUEST_URI", ascii "SCRIPT_FILENAME",
    ascii "SCRIPT_NAME"]
  decide

theorem find?_scriptFilename : find? (ascii "SCRIPT_FILENAME")
    (insertAll (assignments lib input config root) []) =
      some (joinRoot root (scriptName input config)) := by
  rw [find?_assignments henv root (by decide)]
  refine find?_insertAll_split [_, _, _, _] [_] rfl ?_ _
  show ascii "SCRIPT_FILENAME" ∉ [ascii "SCRIPT_NAME"]
  decide

theorem find?_scriptName : find? (ascii "SCRIPT_NAME")
    (insertAll (assignments lib input config root) []) = some (scriptName input config) := by
  rw [find?_assignments henv root (by decide)]
  exact find?_insertAll_split [_, _, _, _, _] [] rfl (by simp) _

end

/-- The variables put the path together again, and name the script that the split selects. -/
structure SplitLaw (config : TransportConfig) (root path : Bytes) (env : List (Bytes × Bytes)) :
    Prop where
  whole : ∃ script info, SortedMap.find? (ascii "SCRIPT_NAME") env = some script ∧
    SortedMap.find? (ascii "PATH_INFO") env = some info ∧ script ++ info = path
  split : ∀ position, FirstSplit path config.splitPath position →
    SortedMap.find? (ascii "SCRIPT_NAME") env = some (path.take position) ∧
      SortedMap.find? (ascii "DOCUMENT_URI") env = some (path.take position) ∧
      SortedMap.find? (ascii "SCRIPT_FILENAME") env = some (joinRoot root (path.take position))
  unsplit : (∀ position, ¬FirstSplit path config.splitPath position) →
    SortedMap.find? (ascii "PATH_INFO") env = some [] ∧
      SortedMap.find? (ascii "SCRIPT_FILENAME") env = some (joinRoot root path)

/-- What follows the split is not also the end of what it follows, the path `//` apart. -/
def Unrepeated (path : Bytes) (splitPath : List Bytes) : Prop :=
  ∀ position, FirstSplit path splitPath position → path.drop position ≠ [] →
    path.drop position <:+ path.take position → path = [slash, slash]

section

variable (hslash : input.request.path.head? = some slash)

include hslash

theorem scriptName_of_pathInfo (hinfo : pathInfo input config = []) :
    scriptName input config = input.request.path := by
  rw [scriptName, hinfo]
  exact if_pos hslash

end

/-- What a script name is made of. -/
theorem scriptName_of_split {pos : Nat}
    (hinfo : pathInfo input config = input.request.path.drop pos)
    (hne : input.request.path.drop pos ≠ []) :
    let name := trimEndMatches (input.request.path.drop pos) (input.request.path.take pos)
    scriptName input config = if name.head? = some slash then name else slash :: name := by
  have htr := trimEndMatches_append hne (input.request.path.take pos)
  rw [take_append_drop] at htr
  rw [scriptName, hinfo]
  simp [hne, htr]

/-- A script name that was cut twice does not go with the path info. -/
theorem eq_slashes_of_repeated {script info name : Bytes}
    (hslash : (script ++ info).head? = some slash) (hne : info ≠ []) (hsuf : info <:+ script)
    (hn : name = trimEndMatches info script)
    (h : (if name.head? = some slash then name else slash :: name) ++ info = script ++ info) :
    script ++ info = [slash, slash] := by
  obtain ⟨f, rfl⟩ := hsuf
  have hp := length_pos_iff.mpr hne
  rw [trimEndMatches_append hne] at hn
  obtain ⟨more, hmo⟩ := hn ▸ trimEndMatches_prefix info f
  have hc := append_cancel_right h
  split at hc
  · -- the name is shorter than the script
    have hlen := congrArg List.length hc
    rw [← hmo] at hlen
    simp only [length_append] at hlen
    omega
  · next hhd =>
    have hni : name = [] := by
      cases name with
      | nil => rfl
      | cons b name =>
        rw [← hmo] at hslash
        exact absurd hslash hhd
    rw [hni] at hc
    have hlen := congrArg List.length hc
    simp only [length_append, length_cons, length_nil] at hlen
    obtain rfl : f = [] := length_eq_zero_iff.mp (by omega)
    rw [nil_append] at hc ⊢
    rw [← hc]
    rfl

theorem pathInfo_of_split (hsp : FirstSplit input.request.path config.splitPath position)
    (hrem : input.requestVars (ascii "http.matchers.file.remainder") = none) :
    pathInfo input config = input.request.path.drop position := by
  rw [pathInfo, splitPosition_eq_some_iff.mpr hsp, hrem]
  simp only [Option.getD_none]
  split
  · next h => exact h.symm
  · rfl

theorem splitPosition_eq_none (h : ∀ pos, ¬FirstSplit input.request.path config.splitPath pos) :
    splitPosition input.request.path config.splitPath = none := by
  cases hsp : splitPosition input.request.path config.splitPath with
  | none => rfl
  | some pos => exact absurd (splitPosition_eq_some_iff.mp hsp) (h pos)

theorem scriptName_eq_take (hslash : input.request.path.head? = some slash)
    (hsp : FirstSplit input.request.path config.splitPath position)
    (hinfo : pathInfo input config = input.request.path.drop position)
    (h : Unrepeated input.request.path config.splitPath) :
    scriptName input config = input.request.path.take position := by
  obtain ⟨hps, hle⟩ := hsp.bounds
  have hp := take_append_drop position input.request.path
  by_cases hne : input.request.path.drop position = []
  · rw [scriptName_of_pathInfo hslash (hinfo.trans hne)]
    rw [hne, append_nil] at hp
    exact hp.symm
  · rw [scriptName_of_split hinfo hne]
    by_cases hsuf : input.request.path.drop position <:+ input.request.path.take position
    · have hslashes := h position hsp hne hsuf
      -- a path of two slashes is cut in the middle
      rw [hslashes] at hle hne ⊢
      obtain rfl : position = 1 := by
        have hdr := length_pos_iff.mpr hne
        simp at hle hdr
        omega
      decide +kernel
    · rw [trimEndMatches_of_not_suffix hsuf]
      exact if_pos (by rw [List.head?_take, if_neg (by omega), hslash])

/-- The variables put every path together again but those whose script name ends like the rest. -/
theorem splitLaw_iff (lib : CgiLib) (input : EnvironmentInput) (config : TransportConfig)
    (root : Bytes) (env : List (Bytes × Bytes)) (hslash : input.request.path.head? = some slash)
    (hremainder : input.requestVars (ascii "http.matchers.file.remainder") = none)
    (henv : ∀ key ∈ splitVariables, key ∉ config.env.map Prod.fst)
    (hroot : documentRoot lib config = some root)
    (hbuild : buildEnvironment lib input config = some env) :
    SplitLaw config root input.request.path env ↔
      Unrepeated input.request.path config.splitPath := by
  rw [buildEnvironment, hroot, Option.map_some, Option.some.injEq] at hbuild
  subst hbuild
  constructor
  · rintro ⟨⟨s, i, hscr, hinfo, hwh⟩, -, -⟩ position hsp hne hsuf
    rw [find?_scriptName henv, Option.some.injEq] at hscr
    rw [find?_pathInfo henv, Option.some.injEq] at hinfo
    have hdr := pathInfo_of_split hsp hremainder
    rw [← hscr, ← hinfo, hdr, scriptName_of_split hdr hne] at hwh
    have hp := take_append_drop position input.request.path
    rw [← hp]
    exact eq_slashes_of_repeated (hp.symm ▸ hslash) hne hsuf rfl (hwh.trans hp.symm)
  · intro h
    have hsp' {position : Nat} (hsp : FirstSplit input.request.path config.splitPath position) :
        scriptName input config = input.request.path.take position :=
      scriptName_eq_take hslash hsp (pathInfo_of_split hsp hremainder) h
    have huns (hnone : ∀ position, ¬FirstSplit input.request.path config.splitPath position) :
        pathInfo input config = [] ∧ scriptName input config = input.request.path := by
      have hinfo : pathInfo input config = [] := by
        rw [pathInfo, splitPosition_eq_none hnone, hremainder]
        rfl
      exact ⟨hinfo, scriptName_of_pathInfo hslash hinfo⟩
    refine ⟨⟨_, _, find?_scriptName henv root, find?_pathInfo henv root, ?_⟩,
      fun position hsp => ?_, fun hnone => ?_⟩
    · by_cases hsp : ∃ position, FirstSplit input.request.path config.splitPath position
      · obtain ⟨position, hsp⟩ := hsp
        rw [hsp' hsp, pathInfo_of_split hsp hremainder, take_append_drop]
      · rw [not_exists] at hsp
        rw [(huns hsp).1, (huns hsp).2, append_nil]
    · rw [find?_scriptName henv, find?_documentUri henv, find?_scriptFilename henv, hsp' hsp,
        documentUri, splitPosition_eq_some_iff.mpr hsp]
      exact ⟨rfl, rfl, rfl⟩
    · rw [find?_pathInfo henv, find?_scriptFilename henv, (huns hnone).1, (huns hnone).2]
      exact ⟨rfl, rfl⟩

def plainLib : CgiLib where
  canonicalize := some
  resolveCaddyPlaceholders _ template := template
  authorityPort _ := none
  toStr := some
  blocks _ _ := false
  foldCookies values := (ascii "; ").intercalate values
  serverSoftware := ascii "Pingclair"

def phpRequest (path : Bytes) : EnvironmentInput where
  request := ⟨path, none, path, none, ascii "GET", .other, []⟩
  remoteIp := ascii "203.0.113.7"
  remotePort := none
  scheme := ascii "http"
  originalUri := []
  requestVars _ := none

def phpConfig : TransportConfig where
  root := some (ascii "/srv")
  splitPath := [ascii ".php"]
  env := []
  resolveRootSymlink := false

def phpEnvironment (path : Bytes) : List (Bytes × Bytes) :=
  SortedMap.insertAll (assignments plainLib (phpRequest path) phpConfig (ascii "/srv")) []

theorem splitLaw_index : SplitLaw phpConfig (ascii "/srv") (ascii "/index.php/a")
    (phpEnvironment (ascii "/index.php/a")) := by
  refine (splitLaw_iff plainLib (phpRequest (ascii "/index.php/a")) phpConfig (ascii "/srv") _
    (by decide) rfl (by simp [phpConfig]) rfl rfl).mpr fun position hsp _ hsuf => ?_
  have hposn : splitPosition (ascii "/index.php/a") [ascii ".php"] = some 10 := by
    decide
  obtain rfl : 10 = position :=
    Option.some.inj (hposn.symm.trans (splitPosition_eq_some_iff.mpr hsp))
  exact absurd hsuf (by decide)

/-- The script of `/x.php/x.php` is not the one that the split selects. -/
theorem not_splitLaw_repeated :
    buildEnvironment plainLib (phpRequest (ascii "/x.php/x.php")) phpConfig =
      some (phpEnvironment (ascii "/x.php/x.php")) ∧
    ¬SplitLaw phpConfig (ascii "/srv") (ascii "/x.php/x.php")
      (phpEnvironment (ascii "/x.php/x.php")) := by
  refine ⟨rfl, ?_⟩
  rintro ⟨⟨s, i, hscr, hinfo, hwh⟩, -, -⟩
  have hscr' : find? (ascii "SCRIPT_NAME") (phpEnvironment (ascii "/x.php/x.php")) =
      some (ascii "/") := by decide +kernel
  have hinfo' : find? (ascii "PATH_INFO") (phpEnvironment (ascii "/x.php/x.php")) =
      some (ascii "/x.php") := by decide
  rw [hscr', Option.some.injEq] at hscr
  rw [hinfo', Option.some.injEq] at hinfo
  subst hscr hinfo
  exact absurd hwh (by decide)

end Pingclair.FastCgi
