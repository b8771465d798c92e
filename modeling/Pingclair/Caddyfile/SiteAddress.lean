import Pingclair.Lib.SocketAddress

/-!
# Site addresses

A site block begins with its addresses: `example.com`, `:8080`, `http://localhost:2015`. The adapter
separates them by the listeners they ask for, refuses some, and makes a site of each group. What the
directives of a block add is not here.
-/

namespace Pingclair

open ByteText IpAddr Numerals

namespace Caddyfile

abbrev comma : UInt8 := 0x2C
abbrev openBracket : UInt8 := 0x5B
abbrev closeBracket : UInt8 := 0x5D
abbrev dash : UInt8 := 0x2D

inductive Scheme where
  | http
  | https
  deriving DecidableEq

structure GlobalBlock where
  httpPort : Option Nat
  httpsPort : Option Nat

def GlobalBlock.defaultPort (global : GlobalBlock) : Scheme → Nat
  | .https => global.httpsPort.getD 443
  | .http => global.httpPort.getD 80

structure ListenAddr where
  scheme : Scheme
  host : Bytes
  port : Option Nat
  forcePlaintext : Bool
  deriving DecidableEq

/-- An address as it was read. It is `explicit` when it names a listener of its own. -/
structure ParsedAddress where
  hostname : Bytes
  listen : ListenAddr
  explicit : Bool

inductive AdapterError where
  | unknownDirective (name : Bytes)
  | unsupportedFeature (feature message : Bytes)
  | argumentCount (directive : Bytes) (expected got : Nat)
  | invalidArgument (argument message : Bytes)
  | blockNotAllowed (directive : Bytes)
  deriving DecidableEq

def siteAddress : Bytes := ascii "site address"

def anyHost : Bytes := ascii "[::]"

def httpMark : Bytes := ascii "http://"

def httpsMark : Bytes := ascii "https://"

def hasSchemeMark (addr : Bytes) : Bool := (splitOnceText (ascii "://") addr).isSome

def bareAddress (addr : Bytes) : Bytes :=
  ((addr.dropPrefix? httpsMark).orElse fun _ => addr.dropPrefix? httpMark).getD addr

def parsePort (port : Bytes) : Option Nat := parseUnsigned 65535 port

def isIpLiteral (host : Bytes) : Bool :=
  (IpAddr.parse host).isSome ||
    ((host.dropPrefix? [openBracket]).bind fun host => host.dropSuffix? [closeBracket]).any
      fun host => (IpAddr.parse host).isSome

def isWildcardHost (host : Bytes) : Bool :=
  [ascii "[::]", ascii "::", ascii "0.0.0.0", ascii "[::0]"].contains host

def checkScheme (addr : Bytes) : Except AdapterError Unit :=
  match splitOnceText (ascii "://") addr with
  | none => .ok ()
  | some (scheme, _) =>
    if scheme = ascii "http" ∨ scheme = ascii "https" then .ok ()
    else if scheme = ascii "ws" ∨ scheme = ascii "wss" then
      .error (.invalidArgument siteAddress (ascii "the scheme `" ++ scheme ++
        ascii ("://` only exists in browsers; a server " ++
          "listens with `http://` or `https://`")))
    else
      .error (.invalidArgument siteAddress (ascii "unsupported URL scheme `" ++ scheme ++
        ascii "://`"))

/-- A bracket opens an IPv6 address, behind which only a port may stand. A zone is let through, to
be refused as unsupported. -/
def wellFormedLiteral (literal : Bytes) : Bool :=
  match splitOnce closeBracket literal with
  | none => false
  | some (host, after) =>
    (host.contains percent || (parseWith readIpv6Addr host).isSome) &&
      (after.isEmpty || after.head? = some colon)

def checkLiteral (addr : Bytes) : Except AdapterError Unit :=
  match (bareAddress addr).dropPrefix? [openBracket] with
  | none => .ok ()
  | some literal =>
    if wellFormedLiteral literal then .ok ()
    else .error (.invalidArgument siteAddress (ascii "`" ++ addr ++
      ascii "` is not a bracketed IPv6 address such as `[::1]` or `[::1]:8080`"))

def rsplitOnce (sep : UInt8) (s : Bytes) : Option (Bytes × Bytes) :=
  (rfind sep s).map fun i => (s.take i, s.drop (i + 1))

theorem rsplitOnce_append {sep : UInt8} {s t : Bytes} (ht : sep ∉ t) :
    rsplitOnce sep (s ++ sep :: t) = some (s, t) := by
  rw [rsplitOnce, rfind_append ht]
  simp

def checkPort (addr : Bytes) : Except AdapterError Unit :=
  let bare := bareAddress addr
  let afterBracket := ((rfind closeBracket bare).map bare.drop).getD bare
  match rsplitOnce colon afterBracket with
  | none => .ok ()
  | some (_, port) =>
    if port ≠ [] ∧ port.all (fun b => (digitValue b).isSome) ∧ parsePort port = none then
      .error (.invalidArgument siteAddress (ascii "port " ++ port ++ ascii " is out of range"))
    else .ok ()

def rejectImpossibleAddress (addr : Bytes) : Except AdapterError Unit := do
  checkScheme addr
  checkLiteral addr
  checkPort addr

def networks : List Bytes :=
  [ascii "tcp", ascii "tcp4", ascii "tcp6", ascii "udp", ascii "udp4", ascii "udp6", ascii "ip",
    ascii "ip4", ascii "ip6", ascii "unix", ascii "unixgram", ascii "unixpacket"]

def hasNetworkPrefix (addr : Bytes) : Bool :=
  networks.contains (((splitOnce slash addr).map Prod.fst).getD addr)

/-- A network, a Unix socket, a range of ports or a zone. -/
def looksLikeUnsupportedAddress (addr : Bytes) : Bool :=
  let bare := bareAddress addr
  (bare.contains openBracket && bare.contains percent) || hasNetworkPrefix bare ||
    (rsplitOnce colon bare).any fun parts => parts.2.contains dash

def splitScheme (addr : Bytes) : Scheme × Bytes :=
  match addr.dropPrefix? httpsMark with
  | some stripped => (.https, stripped)
  | none =>
    match addr.dropPrefix? httpMark with
    | some stripped => (.http, stripped)
    | none => (.http, addr)

def bracketed (rest : Bytes) : Option (Bytes × Bytes) :=
  if rest.head? = some openBracket then
    (splitOnce closeBracket rest).map fun parts => (parts.1 ++ [closeBracket], parts.2)
  else none

def splitHostPort (rest : Bytes) (defaultPort : Nat) : Option (Bytes × Nat × Bool) :=
  match rest.dropPrefix? [colon] with
  | some port => (parsePort port).map fun port => (anyHost, port, true)
  | none =>
    match bracketed rest with
    | some (host, after) =>
      if isIpLiteral host then
        match after.dropPrefix? [colon] with
        | some port => (parsePort port).map fun port => (host, port, true)
        | none => if after = [] then some (host, defaultPort, false) else none
      else none
    | none =>
      match rsplitOnce colon rest with
      | some (host, port) => (parsePort port).map fun port => (host, port, true)
      | none => some (rest, defaultPort, false)

def parseServerAddress (addr : Bytes) (global : GlobalBlock) : Option ParsedAddress :=
  if hasNetworkPrefix addr then none
  else
    let (scheme, rest) := splitScheme addr
    if rest = [] then none
    else
      (splitHostPort rest (global.defaultPort scheme)).map fun (hostname, port, explicitPort) =>
        { hostname
          listen :=
            { scheme
              host := if isIpLiteral hostname then hostname else anyHost
              port := some port
              forcePlaintext := hasSchemeMark addr && scheme = .http }
          explicit := hasSchemeMark addr || explicitPort || isIpLiteral hostname }

def rejectSchemePortConflict (addr : Bytes) (global : GlobalBlock) : Except AdapterError Unit :=
  match parseServerAddress addr global with
  | none => .ok ()
  | some parsed =>
    let httpPort := global.defaultPort .http
    let httpsPort := global.defaultPort .https
    let conflict := match parsed.listen.scheme with
      | .http => parsed.listen.port == some httpsPort
      | .https => parsed.listen.port == some httpPort
    if hasSchemeMark addr && conflict then
      .error (.invalidArgument siteAddress (ascii "`" ++ addr ++
        ascii "`: scheme and port violate convention. `http://` cannot name the HTTPS port (" ++
        decimal httpsPort ++ ascii ") and `https://` cannot name the HTTP port (" ++
        decimal httpPort ++ ascii ")"))
    else .ok ()

/-- What the adapter reads of a site block: its first key and the keys that follow. -/
structure SiteKeys where
  name : Bytes
  args : List Bytes
  deriving DecidableEq

def stripComma (addr : Bytes) : Bytes := addr.rdropWhile (· = comma)

def SiteKeys.addresses (d : SiteKeys) : List Bytes := (d.name :: d.args).map stripComma

inductive SiteAddressGroup where
  | implicit
  | listener (scheme : Scheme) (host : Bytes) (port : Option Nat) (forcePlaintext : Bool)
  deriving DecidableEq

/-- The listener an address asks for. Bare ports ask for the same one, whatever the port. -/
def siteAddressGroup (address : Bytes) (global : GlobalBlock) : SiteAddressGroup :=
  if address = httpMark then .listener .http anyHost (some (global.defaultPort .http)) true
  else if address = httpsMark then
    .listener .https anyHost (some (global.defaultPort .https)) false
  else
    match parseServerAddress address global with
    | none => .implicit
    | some parsed =>
      if parsed.explicit then
        .listener parsed.listen.scheme parsed.listen.host
          (if parsed.hostname ≠ anyHost then parsed.listen.port else none)
          parsed.listen.forcePlaintext
      else .implicit

def addToGroup (group : SiteAddressGroup) (address : Bytes) :
    List (SiteAddressGroup × List Bytes) → List (SiteAddressGroup × List Bytes)
  | [] => [(group, [address])]
  | (candidate, grouped) :: rest =>
    if candidate = group then (candidate, grouped ++ [address]) :: rest
    else (candidate, grouped) :: addToGroup group address rest

def siteAddressGroups (d : SiteKeys) (global : GlobalBlock) :
    List (SiteAddressGroup × List Bytes) :=
  d.addresses.foldl
    (fun groups address => addToGroup (siteAddressGroup address global) address groups) []

def splitSiteAddressGroups (d : SiteKeys) (global : GlobalBlock) : List SiteKeys :=
  let groups := siteAddressGroups d global
  if groups.length ≤ 1 then [d]
  else groups.map fun group => ⟨group.2.headD [], group.2.tail⟩

structure ServerBlock where
  name : Bytes
  names : List Bytes
  listens : List ListenAddr
  deriving DecidableEq

def isAddressArg (arg : Bytes) : Bool :=
  arg.head? = some colon || arg.contains colon || arg.contains dot || arg = ascii "localhost"

def SiteKeys.names (d : SiteKeys) : List Bytes :=
  stripComma d.name :: (d.args.filter isAddressArg).map stripComma

def ServerBlock.addParsed (server : ServerBlock) (parsed : ParsedAddress) : ServerBlock :=
  { server with
    listens := if parsed.explicit then server.listens ++ [parsed.listen] else server.listens
    names :=
      if parsed.hostname ≠ [] ∧ ¬ isWildcardHost parsed.hostname ∧
          ¬ server.names.contains parsed.hostname then
        server.names ++ [parsed.hostname]
      else server.names }

def schemeListener (scheme : Scheme) (global : GlobalBlock) : ListenAddr where
  scheme := scheme
  host := anyHost
  port := some (global.defaultPort scheme)
  forcePlaintext := scheme = .http

def unsupportedAddress (name : Bytes) : AdapterError :=
  .unsupportedFeature siteAddress (ascii "`" ++ name ++
    ascii ("` uses a network prefix, a port range or a Unix socket, " ++
      "none of which Pingclair supports yet"))

def addAddress (global : GlobalBlock) (server : ServerBlock) (name : Bytes) :
    Except AdapterError ServerBlock := do
  rejectImpossibleAddress name
  rejectSchemePortConflict name global
  if name = httpMark then
    return { server with listens := server.listens ++ [schemeListener .http global] }
  else if name = httpsMark then
    return { server with listens := server.listens ++ [schemeListener .https global] }
  else
    match parseServerAddress name global with
    | some parsed => return server.addParsed parsed
    | none =>
      if looksLikeUnsupportedAddress name then throw (unsupportedAddress name)
      else return server

def anonymous : Bytes := ascii "_"

/-- The name of a site: its first host, or else its first key, unless that is none. -/
def siteName (global : GlobalBlock) (server : ServerBlock) : Bytes :=
  let stripped :=
    if hasSchemeMark server.name then
      ((parseServerAddress server.name global).map ParsedAddress.hostname).getD server.name
    else server.name
  let name := server.names.headD stripped
  if name.head? = some colon ∨ hasSchemeMark name ∨ isWildcardHost name then anonymous else name

def adaptServer (d : SiteKeys) (global : GlobalBlock) : Except AdapterError ServerBlock := do
  let server ← d.names.foldlM (addAddress global) ⟨stripComma d.name, [], []⟩
  return { server with name := siteName global server }

def adaptSites (d : SiteKeys) (global : GlobalBlock) :
    Except AdapterError (List (SiteKeys × ServerBlock)) :=
  (splitSiteAddressGroups d global).mapM fun split => do
    return (split, ← adaptServer split global)

end Caddyfile

end Pingclair
