import Pingclair.Http.Encoding
import Pingclair.Http.ResponsePolicy
import Pingclair.Path.FileServer
import Pingclair.Static.Preconditions

/-!
# Serving static files

`serveResolved` chooses the bytes that answer a request for a file: a precompressed file beside it,
a window of the file, a compressed copy, or the file itself. `evaluatePreconditions` runs before it
and predicts, in code of its own, which of them the request would get.

The header policy of the site may set `ETag`. The file server asks it, with fields that stand in for
those of the response, which tag the client will see.
-/

namespace Pingclair

open ByteText Numerals List Option

abbrev FilePath := List Bytes

structure Metadata where
  isDir : Bool
  isFile : Bool
  len : Nat
  modified : Option SystemTime

def Metadata.mtimeNs (metadata : Metadata) : Option Nat :=
  (metadata.modified.filter fun time => 0 ≤ time).map Int.toNat

structure FileTree where
  metadata : FilePath → Option Metadata
  read : FilePath → Option Bytes

def pushSuffix (path : FilePath) (suffix : Bytes) : FilePath :=
  match path.getLast? with
  | some name => path.dropLast ++ [name ++ suffix]
  | none => [suffix]

structure FileMeta where
  contentType : Bytes
  lastModified : Option Bytes
  etags : EntityTags
  contentLength : Bytes
  modified : Option SystemTime

structure MetaKey where
  path : FilePath
  mtimeNs : Nat
  size : Nat

structure FileKey where
  path : FilePath
  mtimeNs : Nat
  encoding : Bytes
  bodyLen : Nat

/-- What a request finds: the files, the caches, and the clock. An entry that the request itself
adds to a cache holds what it would compute again. -/
structure Snapshot where
  tree : FileTree
  metaCache : MetaKey → Option FileMeta
  compressCache : FileKey → Option Bytes
  /-- The compressed bodies after waiting for another request that compresses the same file. -/
  compressCacheAfterWait : FileKey → Option Bytes
  contentCache : FileKey → Option Bytes
  generateListing : FilePath → Bytes → Option Bytes
  now : SystemTime

structure StaticLib where
  http : HttpMaps
  quality : QualityLib
  fmtHttpDate : SystemTime → Bytes
  parseHttpDate : Bytes → Option SystemTime
  mimeFromPath : FilePath → Option Bytes
  compress : (encoding : Bytes) → (gzipLevel : Nat) → Bytes → Option Bytes

structure PrecompressedFormat where
  encoding : Bytes
  suffix : Bytes

structure FileServerConfig where
  root : FilePath
  index : List Bytes
  browse : Bool
  compress : Bool
  minimumLength : Nat
  gzipLevel : Nat
  encodings : List Encoding
  precompressed : List PrecompressedFormat
  hides : FilePath → Bool
  status : Option Nat
  etagFileExtensions : List Bytes

structure FileServer where
  config : FileServerConfig
  encodePolicy : Encoding.EncodePolicy

structure ServedFile where
  content : Bytes
  contentType : Bytes
  contentLength : Bytes
  path : FilePath
  status : Nat
  contentRange : Option Bytes
  lastModified : Option Bytes
  etag : Option Bytes
  contentEncoding : Option Bytes
  varyAcceptEncoding : Bool
  varyAccept : Bool

/-- A body that is read from the disk while it is sent: `bodyLen` bytes from `start`. -/
structure StreamingFile where
  start : Nat
  bodyLen : Nat
  contentType : Bytes
  contentLength : Bytes
  path : FilePath
  status : Nat
  contentRange : Option Bytes
  lastModified : Option Bytes
  etag : Option Bytes
  contentEncoding : Option Bytes
  varyAcceptEncoding : Bool
  varyAccept : Bool

structure NotModified where
  etag : Bytes
  lastModified : Option Bytes
  varyAcceptEncoding : Bool
  varyAccept : Bool

inductive ServedResponse where
  | buffered (file : ServedFile)
  | stream (file : StreamingFile)
  | redirect (location : Bytes)
  | notModified (answer : NotModified)
  | preconditionFailed
  | methodNotAllowed
  | notAcceptable

namespace ServedResponse

/-- Marks the answer for a page that is negotiated. -/
def withVaryAccept (vary : Bool) (response : ServedResponse) : ServedResponse :=
  if vary then
    match response with
    | buffered file => buffered { file with varyAccept := true }
    | stream file => stream { file with varyAccept := true }
    | notModified answer => notModified { answer with varyAccept := true }
    | other => other
  else response

def bodyEtag : ServedResponse → Option Bytes
  | buffered file => file.etag
  | stream file => file.etag
  | _ => none

end ServedResponse

namespace FileServer

variable (lib : StaticLib) (server : FileServer) (found : Snapshot)

/-- A text file with an entity tag, beside the file the tag is for. -/
def readSidecarTag (path : FilePath) (extension : Bytes) : Option SidecarTag :=
  let suffix := if [0x2E].isPrefixOf extension then extension else 0x2E :: extension
  match (found.tree.read (pushSuffix path suffix)).filter Utf8.valid with
  | none => none
  | some contents =>
    let value := Utf8.trim contents
    if value = [] then none
    else if [tagQuote].isPrefixOf value || weakMark.isPrefixOf value then SidecarTag.parse value
    else SidecarTag.parse ([tagQuote] ++ value ++ [tagQuote])

def readSidecarEtag (path : FilePath) (extensions : List Bytes) : Option SidecarTag :=
  extensions.findSome? (readSidecarTag found path)

def withCharset (mime : Bytes) : Bytes :=
  if (ascii "text/").isPrefixOf mime && !mime.tails.any (ascii "charset").isPrefixOf then
    mime ++ ascii "; charset=utf-8"
  else mime

def guessMimeType (path : FilePath) : Bytes :=
  withCharset ((lib.mimeFromPath path).getD (ascii "application/octet-stream"))

def buildMeta (path : FilePath) (metadata : Metadata) : FileMeta :=
  { contentType := guessMimeType lib path
    lastModified := metadata.modified.map lib.fmtHttpDate
    etags := EntityTags.derive metadata.len (metadata.mtimeNs.getD 0)
      (readSidecarEtag found path server.config.etagFileExtensions) server.config.gzipLevel
    contentLength := decimal metadata.len
    modified := metadata.modified }

def fileMeta (path : FilePath) (metadata : Metadata) : FileMeta :=
  match metadata.mtimeNs with
  | none => buildMeta lib server found path metadata
  | some mtimeNs =>
    (found.metaCache ⟨path, mtimeNs, metadata.len⟩).getD (buildMeta lib server found path metadata)

def streamingThreshold : Nat := 256 * 1024

def maxCompressible : Nat := 8 * 1024 * 1024

/-- Whether static responses name `Accept-Encoding` in `Vary`. -/
def variesByAcceptEncoding : Bool := true

def negotiateEncoding (acceptEncoding : Option Bytes) : Option Bytes :=
  acceptEncoding.bind fun accept =>
    (Encoding.negotiateBy lib.quality accept server.config.encodings Encoding.token).map
      Encoding.token

def wouldCompress (fileSize : Nat) (acceptEncoding : Option Bytes) : Bool :=
  server.config.compress &&
    decide (server.config.minimumLength ≤ fileSize ∧ fileSize ≤ maxCompressible) &&
    (server.negotiateEncoding lib acceptEncoding).isSome

section

variable {lib} (policy : Option (ResponsePolicy lib.http))

def insertSome (headers : lib.http.HeaderMap) (name : Bytes) : Option Bytes → lib.http.HeaderMap
  | some value => lib.http.insert headers name value
  | none => headers

/-- Whether the fields of the unencoded response allow encoding it, after the header policy. -/
def identityHeadersAllowEncoding (status : Nat) (contentType : Bytes)
    (headers : lib.http.HeaderMap) : Bool :=
  let headers := lib.http.insert headers (ascii "vary") (ascii "Accept-Encoding")
  let answer := policy.elim (true, headers) fun policy => policy status headers
  if !answer.1 then false
  else if Encoding.forbidsTransform lib.http.toHttpLib answer.2 then false
  else if !server.encodePolicy.explicit then server.encodePolicy.allowsContentType contentType
  else
    server.encodePolicy.matches status fun name patterns =>
      ((lib.http.getAll answer.2 name).filterMap lib.http.toStr).any fun value =>
        patterns.isEmpty || patterns.any fun pattern => pattern.matches value

def matchesFileEncode (status : Nat) (fileMeta : FileMeta) : Bool :=
  let headers := lib.http.insert lib.http.empty (ascii "content-type") fileMeta.contentType
  let headers := lib.http.insert headers (ascii "content-length") fileMeta.contentLength
  let headers := lib.http.insert headers (ascii "accept-ranges") (ascii "bytes")
  let headers := lib.http.insert headers (ascii "etag") (fileMeta.etags.forCoding none)
  let headers := insertSome headers (ascii "last-modified") fileMeta.lastModified
  server.identityHeadersAllowEncoding policy status ((lib.http.toStr fileMeta.contentType).getD [])
    headers

def matchesListingEncode (length : Nat) : Bool :=
  let headers := lib.http.insert lib.http.empty (ascii "content-type")
    (ascii "text/html; charset=utf-8")
  let headers := lib.http.insert headers (ascii "content-length") (decimal length)
  server.identityHeadersAllowEncoding policy 200 (ascii "text/html") headers

end

def tryPrecompressed (originalPath : FilePath) (acceptEncoding : Option Bytes) :
    Option (FilePath × Metadata × Bytes) :=
  acceptEncoding.bind fun accept =>
    (Encoding.ranked lib.quality accept server.config.precompressed
      PrecompressedFormat.encoding).findSome? fun format =>
        let sidecar := pushSuffix originalPath format.suffix
        if server.config.hides sidecar then none
        else ((found.tree.metadata sidecar).filter Metadata.isFile).map fun metadata =>
          (sidecar, metadata, format.encoding)

def compressWith (input encoding : Bytes) : Option Bytes :=
  if encoding = ascii "br" ∨ encoding = ascii "zstd" ∨ encoding = ascii "gzip" then
    lib.compress encoding server.config.gzipLevel input
  else some input

section

variable {lib} (request : FileRequest lib.http)

def candidateFields (fileMeta : FileMeta) (etag : Bytes) : lib.http.HeaderMap :=
  let headers := lib.http.insert lib.http.empty (ascii "etag") etag
  let headers := lib.http.insert headers (ascii "content-type") fileMeta.contentType
  let headers := lib.http.insert headers (ascii "content-length") fileMeta.contentLength
  let headers := lib.http.insert headers (ascii "accept-ranges") (ascii "bytes")
  insertSome headers (ascii "last-modified") fileMeta.lastModified

/-- The tag that the header policy puts in the place of an internal one. -/
def declaredEtag (policy : Option (ResponsePolicy lib.http)) (fileMeta : FileMeta)
    (internal : Bytes) : Bytes :=
  match policy with
  | none => internal
  | some policy =>
    let answer := policy (server.config.status.getD 200) (candidateFields fileMeta internal)
    if answer.1 then (lib.http.get answer.2 (ascii "etag")).getD internal else internal

/-- The tag of the representation that a request would be sent. -/
def selectedEtag (path : FilePath) (fileSize : Nat) (fileMeta : FileMeta)
    (acceptEncoding : Option Bytes) : Bytes :=
  match if server.config.precompressed.isEmpty then none
      else server.tryPrecompressed lib found path acceptEncoding with
  | some (sidecar, metadata, encoding) =>
    let sidecarMeta := server.fileMeta lib found sidecar metadata
    server.declaredEtag request.responsePolicy fileMeta (sidecarMeta.etags.forSidecar encoding)
  | none =>
    let identityEtag := server.declaredEtag request.responsePolicy fileMeta
      (fileMeta.etags.forCoding none)
    let ranged := request.range.any fun range =>
      ifRangeHolds request.ifRange identityEtag fileMeta.lastModified fileMeta.modified found.now &&
        match parseRange range fileSize with
        | .satisfied _ _ => true
        | _ => false
    if ranged then identityEtag
    else
      let coding :=
        if server.wouldCompress lib fileSize acceptEncoding &&
            server.matchesFileEncode request.responsePolicy (server.config.status.getD 200)
              fileMeta then
          server.negotiateEncoding lib acceptEncoding
        else none
      server.declaredEtag request.responsePolicy fileMeta (fileMeta.etags.forCoding coding)

/-- The tag that the conditions of a request are compared with. -/
def preconditionEtag (path : FilePath) (fileSize : Nat) (fileMeta : FileMeta)
    (acceptEncoding : Option Bytes) : Bytes :=
  if request.comparesEntityTags then
    let internal := server.selectedEtag found request path fileSize fileMeta acceptEncoding
    server.declaredEtag request.responsePolicy fileMeta internal
  else fileMeta.etags.forCoding none

def evaluatePreconditions (path : FilePath) (fileSize : Nat) (fileMeta : FileMeta)
    (acceptEncoding : Option Bytes) : Option ServedResponse :=
  if !request.hasPreconditions then none
  else
    let etag := server.preconditionEtag found request path fileSize fileMeta acceptEncoding
    match request.evaluate lib.parseHttpDate etag fileMeta.modified with
    | .proceed => none
    | .notModified => some (.notModified
        { etag, lastModified := fileMeta.lastModified
          varyAcceptEncoding := variesByAcceptEncoding, varyAccept := false })
    | .failed => some .preconditionFailed

/-! ### Choosing the body -/

structure Window where
  status : Nat
  contentRange : Option Bytes
  start : Nat
  length : Nat

structure RangeBasis where
  length : Nat
  etag : Bytes
  lastModified : Option Bytes
  modified : Option SystemTime

/-- A precompressed file when its bytes will be the body, the file itself otherwise. -/
def rangeBasis (fileMeta : FileMeta) (fileSize : Nat)
    (rangeSidecar : Option (FilePath × Metadata × Bytes)) : RangeBasis :=
  match rangeSidecar with
  | some (sidecar, sidecarMetadata, encoding) =>
    let sidecarMeta := server.fileMeta lib found sidecar sidecarMetadata
    { length := sidecarMetadata.len
      etag := server.declaredEtag request.responsePolicy fileMeta
        (sidecarMeta.etags.forSidecar encoding)
      lastModified := sidecarMeta.lastModified
      modified := sidecarMeta.modified }
  | none =>
    { length := fileSize
      etag := server.declaredEtag request.responsePolicy fileMeta (fileMeta.etags.forCoding none)
      lastModified := fileMeta.lastModified
      modified := fileMeta.modified }

/-- The window a request asks for; `none` when it cannot be satisfied. -/
def applyRange (fileSize : Nat) (basis : RangeBasis) : Option Window :=
  let whole : Window := ⟨server.config.status.getD 200, none, 0, fileSize⟩
  match request.range with
  | none => some whole
  | some range =>
    if ifRangeHolds request.ifRange basis.etag basis.lastModified basis.modified found.now then
      match parseRange range basis.length with
      | .satisfied start finish =>
        some ⟨206, some (ascii "bytes " ++ decimal start ++ ascii "-" ++ decimal finish ++
          ascii "/" ++ decimal basis.length), start, finish - start + 1⟩
      | .unsatisfiable => none
      | .ignored => some whole
    else some whole

/-- The answer to a range that cannot be satisfied. It has no validators. -/
def unsatisfiableRange (path : FilePath) (rangeLength : Nat) : ServedFile :=
  let body := ascii "invalid range: failed to overlap\n"
  { content := body
    contentType := ascii "text/plain; charset=utf-8"
    contentLength := decimal body.length
    path
    status := 416
    contentRange := some (ascii "bytes */" ++ decimal rangeLength)
    lastModified := none
    etag := none
    contentEncoding := none
    varyAcceptEncoding := variesByAcceptEncoding
    varyAccept := false }

/-- The bytes of a body between two offsets, when it has them. -/
def slice (content : Bytes) (start length : Nat) : Option Bytes :=
  if start + length ≤ content.length then some ((content.drop start).take length) else none

variable (lib) in
def openStreamWindow (path : FilePath) (metadata : Metadata) (window : Window)
    (contentEncoding : Option Bytes) : Except Unit StreamingFile :=
  match found.tree.read path with
  | none => .error ()
  | some _ =>
    let fileMeta := server.fileMeta lib found path metadata
    .ok
      { start := window.start
        bodyLen := window.length
        contentType := fileMeta.contentType
        contentLength := decimal window.length
        path
        status := window.status
        contentRange := window.contentRange
        lastModified := fileMeta.lastModified
        etag := some (fileMeta.etags.forCoding (contentEncoding.bind lib.http.toStr))
        contentEncoding
        varyAcceptEncoding := variesByAcceptEncoding
        varyAccept := false }

/-- The part of a precompressed file that is sent: the window of a range, or all of it. -/
def sidecarWindow (window : Window) (sidecarMetadata : Metadata) : Window :=
  if window.contentRange.isSome then window
  else { window with start := 0, length := sidecarMetadata.len }

variable (lib) in
def serveSidecar (path : FilePath) (fileMeta : FileMeta) (window : Window)
    (sidecar : FilePath) (sidecarMetadata : Metadata) (encoding : Bytes) :
    Except Unit (Option ServedResponse) := do
  let sidecarEtag := (server.fileMeta lib found sidecar sidecarMetadata).etags.forSidecar encoding
  let window := sidecarWindow window sidecarMetadata
  if streamingThreshold < window.length then
    let stream ← server.openStreamWindow lib found sidecar sidecarMetadata window (some encoding)
    return some (.stream
      { stream with
        contentType := fileMeta.contentType
        lastModified := fileMeta.lastModified
        etag := some sidecarEtag
        path })
  else
    match (found.tree.read sidecar).bind fun content =>
        slice content window.start window.length with
    | none => return none
    | some content =>
      return some (.buffered
        { content
          contentType := fileMeta.contentType
          contentLength := decimal window.length
          path
          status := window.status
          contentRange := window.contentRange
          lastModified := fileMeta.lastModified
          etag := some sidecarEtag
          contentEncoding := some encoding
          varyAcceptEncoding := variesByAcceptEncoding
          varyAccept := false })

variable (lib) in
/-- Reads part of a file, from the content cache if it can, and compresses it if asked to. -/
def readAndMaybeCompress (path : FilePath) (start length : Nat) (encoding : Option Bytes)
    (mtimeNs : Option Nat) : Except Unit (Bytes × Option Bytes) :=
  let contentKey := if encoding.isNone && start == 0 then
      mtimeNs.map fun mtimeNs => (⟨path, mtimeNs, [], length⟩ : FileKey)
    else none
  match contentKey.bind found.contentCache with
  | some cached => .ok (cached, none)
  | none =>
    match (found.tree.read path).bind fun content => slice content start length with
    | none => .error ()
    | some content =>
      match encoding with
      | none => .ok (content, none)
      | some encoding =>
        match server.compressWith lib content encoding with
        | none => .error ()
        | some compressed => .ok (compressed, some encoding)

def bufferedFile (path : FilePath) (fileMeta : FileMeta) (window : Window) (content : Bytes)
    (encoding : Option Bytes) : ServedFile :=
  { content
    contentType := fileMeta.contentType
    contentLength := decimal content.length
    path
    status := window.status
    contentRange := window.contentRange
    lastModified := fileMeta.lastModified
    etag := some (fileMeta.etags.forCoding encoding)
    contentEncoding := encoding
    varyAcceptEncoding := variesByAcceptEncoding
    varyAccept := false }

/-- The coding a body is compressed with on the fly. A window is never compressed. -/
def cacheEncoding (fileMeta : FileMeta) (fileSize : Nat) (window : Window)
    (acceptEncoding : Option Bytes) : Option Bytes :=
  if window.contentRange.isNone && server.wouldCompress lib fileSize acceptEncoding &&
      server.matchesFileEncode request.responsePolicy window.status fileMeta then
    server.negotiateEncoding lib acceptEncoding
  else none

def serveIdentity (path : FilePath) (metadata : Metadata) (fileMeta : FileMeta) (window : Window)
    (acceptEncoding : Option Bytes) : Except Unit (Option ServedResponse) := do
  let encoding := server.cacheEncoding request fileMeta metadata.len window acceptEncoding
  let key := encoding.bind fun encoding => metadata.mtimeNs.map fun mtimeNs =>
    (⟨path, mtimeNs, encoding, window.length⟩ : FileKey)
  match key.bind found.compressCache with
  | some cached => return some (.buffered (bufferedFile path fileMeta window cached encoding))
  | none =>
    if encoding.isNone ∧ streamingThreshold < window.length then
      let stream ← server.openStreamWindow lib found path metadata window none
      return some (.stream stream)
    else
      -- another request may have compressed the file in the meantime
      match key.bind found.compressCacheAfterWait with
      | some cached => return some (.buffered (bufferedFile path fileMeta window cached encoding))
      | none =>
        let (content, contentEncoding) ← server.readAndMaybeCompress lib found path window.start
          window.length encoding metadata.mtimeNs
        return some (.buffered (bufferedFile path fileMeta window content contentEncoding))

def serveBody (path : FilePath) (metadata : Metadata) (fileMeta : FileMeta)
    (acceptEncoding : Option Bytes) : Except Unit (Option ServedResponse) :=
  let probe := if server.config.precompressed.isEmpty then none
    else server.tryPrecompressed lib found path acceptEncoding
  let rangeSidecar := if request.range.isSome then probe else none
  let basis := server.rangeBasis found request fileMeta metadata.len rangeSidecar
  match server.applyRange found request metadata.len basis with
  | none => .ok (some (.buffered (unsatisfiableRange path basis.length)))
  | some window =>
    let sidecar := match rangeSidecar with
      | some sidecar => some sidecar
      | none => if request.range.isNone then probe else none
    match sidecar with
    | some (sidecar, sidecarMetadata, encoding) =>
      server.serveSidecar lib found path fileMeta window sidecar sidecarMetadata encoding
    | none => server.serveIdentity found request path metadata fileMeta window acceptEncoding

def serveFile (path : FilePath) (metadata : Metadata) (acceptEncoding : Option Bytes) :
    Except Unit (Option ServedResponse) :=
  if !request.isRetrieval then .ok (some .methodNotAllowed)
  else
    let fileMeta := server.fileMeta lib found path metadata
    -- under a status of its own the site wants no 304
    let answer := if server.config.status.isNone then
        server.evaluatePreconditions found request path metadata.len fileMeta acceptEncoding
      else none
    match answer with
    | some answer => .ok (some answer)
    | none => server.serveBody found request path metadata fileMeta acceptEncoding

def indexFile (path index : Bytes) : Option FilePath :=
  (resolvePath server.config.root (path ++ ascii "/" ++ index)).filter fun indexPath =>
    !server.config.hides indexPath && (found.tree.metadata indexPath).any Metadata.isFile

inductive Located where
  | file (path : FilePath) (metadata : Metadata)
  | directory
  | missing

/-- A directory stands for its index file. -/
def locate (path : Bytes) (filePath : FilePath) (metadata : Metadata) : Located :=
  if metadata.isDir then
    match server.config.index.findSome? (server.indexFile found path) with
    | some indexPath =>
      match found.tree.metadata indexPath with
      | some metadata => .file indexPath metadata
      | none => .missing
    | none => if server.config.browse then .directory else .missing
  else .file filePath metadata

def serveListing (path : Bytes) (acceptEncoding : Option Bytes) (filePath : FilePath) :
    Except Unit (Option ServedResponse) :=
  if !request.isRetrieval then .ok (some .methodNotAllowed)
  else
    match found.generateListing filePath path with
    | none => .error ()
    | some listing =>
      let encoding :=
        if server.wouldCompress lib listing.length acceptEncoding && request.range.isNone &&
            server.matchesListingEncode request.responsePolicy listing.length then
          server.negotiateEncoding lib acceptEncoding
        else none
      match encoding.elim (some listing) (server.compressWith lib listing) with
      | none => .error ()
      | some content => .ok (some (.buffered
          { content
            contentType := ascii "text/html; charset=utf-8"
            contentLength := decimal content.length
            path := filePath
            status := 200
            contentRange := none
            lastModified := none
            etag := none
            contentEncoding := encoding
            varyAcceptEncoding := variesByAcceptEncoding
            varyAccept := false }))

def serveResolved (path : Bytes) (acceptEncoding : Option Bytes) (filePath : FilePath)
    (metadata : Metadata) : Except Unit (Option ServedResponse) :=
  match server.locate found path filePath metadata with
  | .file filePath metadata => server.serveFile found request filePath metadata acceptEncoding
  | .directory => server.serveListing found request path acceptEncoding filePath
  | .missing => .ok none

end

end FileServer

/-! ### The fields of a response -/

inductive Transport where
  | http1or2
  | http3

namespace Transport

open FileServer (insertSome)

variable {lib : StaticLib}

def varyCovers (headers : lib.http.HeaderMap) (name : Bytes) : Bool :=
  (((lib.http.getAll headers (ascii "vary")).filterMap lib.http.toStr).flatMap
    (·.splitOn Encoding.comma)).any fun token =>
      trim token == ascii "*" || AsciiCase.eqIgnoreCase (trim token) name

def varyOn (headers : lib.http.HeaderMap) (name : Bytes) : lib.http.HeaderMap :=
  if varyCovers headers name then headers else lib.http.append headers (ascii "vary") name

/-- The two flags of a response about `Vary`. The older transport sets the field. -/
def varyFields (transport : Transport) (headers : lib.http.HeaderMap)
    (varyAcceptEncoding varyAccept : Bool) : lib.http.HeaderMap :=
  let headers := if varyAcceptEncoding then
      match transport with
      | http1or2 => lib.http.insert headers (ascii "vary") (ascii "Accept-Encoding")
      | http3 => varyOn headers (ascii "Accept-Encoding")
    else headers
  if varyAccept then varyOn headers (ascii "Accept") else headers

def bodyFields (transport : Transport) : ServedResponse → lib.http.HeaderMap
  | .buffered file =>
    let headers := lib.http.insert lib.http.empty (ascii "content-type") file.contentType
    let headers := lib.http.insert headers (ascii "content-length") file.contentLength
    match transport with
    | http1or2 =>
      let headers := insertSome headers (ascii "content-range") file.contentRange
      let headers := insertSome headers (ascii "last-modified") file.lastModified
      let headers := insertSome headers (ascii "etag") file.etag
      let headers := insertSome headers (ascii "content-encoding") file.contentEncoding
      let headers := transport.varyFields headers file.varyAcceptEncoding file.varyAccept
      lib.http.insert headers (ascii "accept-ranges") (ascii "bytes")
    | http3 =>
      let headers := lib.http.insert headers (ascii "accept-ranges") (ascii "bytes")
      let headers := insertSome headers (ascii "content-range") file.contentRange
      let headers := insertSome headers (ascii "last-modified") file.lastModified
      let headers := insertSome headers (ascii "etag") file.etag
      let headers := insertSome headers (ascii "content-encoding") file.contentEncoding
      transport.varyFields headers file.varyAcceptEncoding file.varyAccept
  | .stream file =>
    let headers := lib.http.insert lib.http.empty (ascii "content-type") file.contentType
    let headers := lib.http.insert headers (ascii "content-length") file.contentLength
    match transport with
    | http1or2 =>
      let headers := insertSome headers (ascii "content-range") file.contentRange
      let headers := insertSome headers (ascii "content-encoding") file.contentEncoding
      let headers := insertSome headers (ascii "last-modified") file.lastModified
      let headers := insertSome headers (ascii "etag") file.etag
      let headers := transport.varyFields headers file.varyAcceptEncoding file.varyAccept
      lib.http.insert headers (ascii "accept-ranges") (ascii "bytes")
    | http3 =>
      let headers := lib.http.insert headers (ascii "accept-ranges") (ascii "bytes")
      let headers := insertSome headers (ascii "content-range") file.contentRange
      let headers := insertSome headers (ascii "content-encoding") file.contentEncoding
      let headers := transport.varyFields headers file.varyAcceptEncoding file.varyAccept
      let headers := insertSome headers (ascii "last-modified") file.lastModified
      insertSome headers (ascii "etag") file.etag
  | _ => lib.http.empty

def bodyStatus : ServedResponse → Nat
  | .buffered file => file.status
  | .stream file => file.status
  | _ => 200

/-- The tag that a header policy leaves on a response. One over which it fails is not sent. -/
def policyEtag (policy : Option (ResponsePolicy lib.http)) (status : Nat)
    (headers : lib.http.HeaderMap) : Option Bytes :=
  let answer := policy.elim (true, headers) fun policy => policy status headers
  if answer.1 then lib.http.get answer.2 (ascii "etag") else none

/-- The tag a client receives: that of the response after the header policy ran over it once. -/
def receivedEtag (transport : Transport) (policy : Option (ResponsePolicy lib.http))
    (response : ServedResponse) : Option Bytes :=
  policyEtag policy (bodyStatus response) (transport.bodyFields response)

theorem accepts_of_policyEtag {policy : Option (ResponsePolicy lib.http)} {status : Nat}
    {headers : lib.http.HeaderMap} {tag : Bytes} (h : policyEtag policy status headers = some tag) :
    lib.http.accepts (ascii "etag") tag = true := by
  rw [policyEtag] at h
  split at h
  · exact lib.http.accepts_of_mem (List.mem_of_head? h)
  · cases h

end Transport

namespace FileRequest

variable {http : HttpMaps} (request : FileRequest http)

theorem field_withoutPreconditions {name : Bytes}
    (h : ∀ removed ∈ preconditions, AsciiCase.eqIgnoreCase name removed = false) :
    request.withoutPreconditions.field name = request.field name := by
  have hget : ∀ (removed : List Bytes) (hdrs : http.HeaderMap),
      (∀ ot ∈ removed, AsciiCase.eqIgnoreCase name ot = false) →
      http.getAll (removed.foldl http.remove hdrs) name = http.getAll hdrs name := by
    intro removed
    induction removed with
    | nil => intro hdrs _; rfl
    | cons ot removed ih =>
      intro hdrs hother
      rw [foldl_cons, ih _ (forall_mem_cons.mp hother).2,
        http.getAll_remove, hother ot mem_cons_self]
      rfl
  rw [field, field, HttpLib.get, HttpLib.get, withoutPreconditions, hget _ _ h]

theorem range_withoutPreconditions : request.withoutPreconditions.range = request.range :=
  request.field_withoutPreconditions (by decide)

theorem ifRange_withoutPreconditions : request.withoutPreconditions.ifRange = request.ifRange :=
  request.field_withoutPreconditions (by decide)

theorem responsePolicy_withoutPreconditions :
    request.withoutPreconditions.responsePolicy = request.responsePolicy := rfl

theorem hasPreconditions_withoutPreconditions :
    request.withoutPreconditions.hasPreconditions = false := by
  have hremoved : ∀ name ∈ preconditions,
      http.getAll request.withoutPreconditions.headers name = [] := by
    intro name hname
    simp only [withoutPreconditions, preconditions, foldl_cons, foldl_nil, http.getAll_remove]
    simp only [preconditions, mem_cons, not_mem_nil, or_false] at hname
    rcases hname with rfl | rfl | rfl | rfl <;> simp [AsciiCase.eqIgnoreCase]
  rw [hasPreconditions, List.any_eq_false]
  intro name hname
  rw [contains, HttpLib.get, hremoved name hname]
  decide

end FileRequest

namespace FileServer

open Transport (policyEtag accepts_of_policyEtag)

variable {lib : StaticLib} (server : FileServer) (found : Snapshot)
  (request : FileRequest lib.http)

inductive Representation where
  | sidecar (path : FilePath) (metadata : Metadata) (encoding : Bytes)
  | identity
  | compressed (encoding : Bytes)

variable (lib) in
def representationEtag (fileMeta : FileMeta) : Representation → Bytes
  | .sidecar path metadata encoding =>
    (server.fileMeta lib found path metadata).etags.forSidecar encoding
  | .identity => fileMeta.etags.forCoding none
  | .compressed encoding => fileMeta.etags.forCoding (some encoding)

def rangeApplies (fileSize : Nat) (fileMeta : FileMeta) : Bool :=
  request.range.any fun range =>
    ifRangeHolds request.ifRange
        (server.declaredEtag request.responsePolicy fileMeta (fileMeta.etags.forCoding none))
        fileMeta.lastModified fileMeta.modified found.now &&
      match parseRange range fileSize with
      | .satisfied _ _ => true
      | _ => false

def liveCoding (fileSize : Nat) (fileMeta : FileMeta) (acceptEncoding : Option Bytes) :
    Option Bytes :=
  if server.wouldCompress lib fileSize acceptEncoding &&
      server.matchesFileEncode request.responsePolicy (server.config.status.getD 200) fileMeta then
    server.negotiateEncoding lib acceptEncoding
  else none

/-- The representation a request is sent: a precompressed file the client accepts; else the file
itself when a range applies to it; else the file in a coding, if one is negotiated. -/
def representation (path : FilePath) (fileSize : Nat) (fileMeta : FileMeta)
    (acceptEncoding : Option Bytes) : Representation :=
  match if server.config.precompressed.isEmpty then none
      else server.tryPrecompressed lib found path acceptEncoding with
  | some (sidecar, metadata, encoding) => .sidecar sidecar metadata encoding
  | none =>
    if server.rangeApplies found request fileSize fileMeta then .identity
    else (server.liveCoding request fileSize fileMeta acceptEncoding).elim .identity .compressed

variable {path : FilePath} {metadata : Metadata} {fileMeta : FileMeta} {window : Window}
  {acceptEncoding : Option Bytes} {response : ServedResponse}

/-- The prediction is the policy's tag for that representation. -/
theorem selectedEtag_eq (fileSize : Nat) :
    server.selectedEtag found request path fileSize fileMeta acceptEncoding =
      server.declaredEtag request.responsePolicy fileMeta
        (server.representationEtag lib found fileMeta
          (server.representation found request path fileSize fileMeta acceptEncoding)) := by
  rw [selectedEtag, representation]
  split
  · rfl
  · change (if server.rangeApplies found request fileSize fileMeta then _
      else server.declaredEtag request.responsePolicy fileMeta
        (fileMeta.etags.forCoding (server.liveCoding request fileSize fileMeta acceptEncoding))) = _
    split
    · rfl
    · cases server.liveCoding request fileSize fileMeta acceptEncoding <;> rfl

/-! ### The tag of the response -/

/-- A stream has the tag of the file it reads. -/
theorem openStreamWindow_etag {contentEncoding : Option Bytes} {stream : StreamingFile}
    (h : server.openStreamWindow lib found path metadata window contentEncoding = .ok stream) :
    stream.etag = some ((server.fileMeta lib found path metadata).etags.forCoding
      (contentEncoding.bind lib.http.toStr)) := by
  rw [openStreamWindow] at h
  split at h
  · cases h
  · cases h
    rfl

theorem serveSidecar_etag {sidecar : FilePath} {sidecarMetadata : Metadata} {enc : Bytes}
    (h : server.serveSidecar lib found path fileMeta window sidecar sidecarMetadata enc =
      .ok (some response)) :
    response.bodyEtag = some (server.representationEtag lib found fileMeta
      (.sidecar sidecar sidecarMetadata enc)) := by
  rw [serveSidecar] at h
  split at h
  · obtain ⟨s, -, h⟩ := Fallible.bind_eq_ok.mp h
    cases h
    rfl
  · split at h
    · cases h
    · cases h
      rfl

/-- A body is compressed if it was asked to be. -/
theorem readAndMaybeCompress_encoding {start length : Nat} {encoding : Option Bytes}
    {mtimeNs : Option Nat} {body : Bytes × Option Bytes}
    (h : server.readAndMaybeCompress lib found path start length encoding mtimeNs = .ok body) :
    body.2 = encoding := by
  rw [readAndMaybeCompress] at h
  cases encoding with
  | none =>
    split at h
    · cases h
      rfl
    · split at h <;> cases h
      rfl
  | some encoding =>
    simp only [isNone_some, Bool.false_and, Bool.false_eq_true, if_false, bind_none] at h
    split at h
    · cases h
    · split at h <;> cases h
      rfl

/-- A body from the file itself has the tag of its coding. -/
theorem serveIdentity_etag (h : server.serveIdentity found request path metadata
      (server.fileMeta lib found path metadata) window acceptEncoding = .ok (some response)) :
    response.bodyEtag = some ((server.fileMeta lib found path metadata).etags.forCoding
      (server.cacheEncoding request (server.fileMeta lib found path metadata) metadata.len window
        acceptEncoding)) := by
  rw [serveIdentity] at h
  split at h
  · cases h
    rfl
  · split at h
    · next hsm =>
      obtain ⟨s, hop, h⟩ := Fallible.bind_eq_ok.mp h
      cases h
      rw [ServedResponse.bodyEtag, openStreamWindow_etag server found hop,
        isNone_iff_eq_none.mp hsm.1]
      rfl
    · split at h
      · cases h
        rfl
      · obtain ⟨b, hrd, h⟩ := Fallible.bind_eq_ok.mp h
        cases h
        rw [← readAndMaybeCompress_encoding server found hrd]
        rfl

/-- What a window says of the range it came from. -/
theorem cacheEncoding_of_applyRange (h : server.applyRange found request metadata.len
      (server.rangeBasis found request fileMeta metadata.len none) = some window) :
    server.cacheEncoding request fileMeta metadata.len window acceptEncoding =
      if server.rangeApplies found request metadata.len fileMeta then none
      else server.liveCoding request metadata.len fileMeta acceptEncoding := by
  -- without a range, the window is the whole file under the status of the site
  have hwh : ∀ {w : Window}, w = ⟨server.config.status.getD 200, none, 0, metadata.len⟩ →
      server.cacheEncoding request fileMeta metadata.len w acceptEncoding =
        server.liveCoding request metadata.len fileMeta acceptEncoding := by
    rintro w rfl
    simp [cacheEncoding, liveCoding]
  rw [applyRange, rangeBasis] at h
  rw [rangeApplies]
  cases hrg : request.range with
  | none =>
    simp only [hrg, some.injEq] at h
    simpa using hwh h.symm
  | some range =>
    simp only [hrg] at h
    rw [any_some]
    split at h
    · next hhl =>
      rw [hhl]
      cases hps : parseRange range metadata.len with
      | satisfied start finish =>
        rw [hps] at h
        cases h
        simp [cacheEncoding]
      | unsatisfiable =>
        rw [hps] at h
        cases h
      | ignored =>
        rw [hps] at h
        simpa using hwh (Option.some.inj h).symm
    · next hhl =>
      rw [Bool.not_eq_true] at hhl
      rw [hhl]
      simpa using hwh (Option.some.inj h).symm

/-- A response with a tag has that of the representation. -/
theorem serveBody_etag {tag : Bytes} (h : server.serveBody found request path metadata
      (server.fileMeta lib found path metadata) acceptEncoding = .ok (some response))
    (htag : response.bodyEtag = some tag) :
    tag = server.representationEtag lib found (server.fileMeta lib found path metadata)
      (server.representation found request path metadata.len
        (server.fileMeta lib found path metadata) acceptEncoding) := by
  rw [serveBody] at h
  rw [representation]
  set p := if server.config.precompressed.isEmpty then none
    else server.tryPrecompressed lib found path acceptEncoding with hprb
  split at h
  · -- a range that cannot be satisfied is answered without a tag
    cases h
    cases htag
  · next window hwindow =>
    cases hfd : p with
    | some s =>
      obtain ⟨s, sd, e⟩ := s
      have hsvd : server.serveSidecar lib found path (server.fileMeta lib found path metadata)
          window s sd e = .ok (some response) := by
        rw [hfd] at h
        cases hrg : request.range <;> simpa [hrg] using h
      rw [serveSidecar_etag server found hsvd] at htag
      exact (Option.some.inj htag).symm
    | none =>
      rw [hfd, ite_self] at h hwindow
      have hsvd : server.serveIdentity found request path metadata
          (server.fileMeta lib found path metadata) window acceptEncoding =
            .ok (some response) := by
        simpa using h
      rw [serveIdentity_etag server found request hsvd,
        cacheEncoding_of_applyRange server found request hwindow, some.injEq] at htag
      rw [← htag]
      split
      · rfl
      · cases server.liveCoding request metadata.len (server.fileMeta lib found path metadata)
          acceptEncoding <;> rfl

theorem rangeApplies_withoutPreconditions (fileSize : Nat) :
    server.rangeApplies found request.withoutPreconditions fileSize fileMeta =
      server.rangeApplies found request fileSize fileMeta := by
  rw [rangeApplies, rangeApplies, request.range_withoutPreconditions,
    request.ifRange_withoutPreconditions, request.responsePolicy_withoutPreconditions]

/-- Conditions do not change which representation a request would be sent. -/
theorem representation_withoutPreconditions (fileSize : Nat) :
    server.representation found request.withoutPreconditions path fileSize fileMeta acceptEncoding =
      server.representation found request path fileSize fileMeta acceptEncoding := by
  rw [representation, rangeApplies_withoutPreconditions]
  rfl

/-- A request that no condition decides is sent the body of its representation. -/
theorem serveFile_etag {tag : Bytes}
    (h : server.serveFile found request.withoutPreconditions path metadata acceptEncoding =
      .ok (some response))
    (htag : response.bodyEtag = some tag) :
    tag = server.representationEtag lib found (server.fileMeta lib found path metadata)
      (server.representation found request path metadata.len
        (server.fileMeta lib found path metadata) acceptEncoding) := by
  rw [serveFile] at h
  split at h
  · cases h
    cases htag
  · have hans : (if server.config.status.isNone then
        server.evaluatePreconditions found request.withoutPreconditions path metadata.len
          (server.fileMeta lib found path metadata) acceptEncoding
        else none) = none := by
      rw [evaluatePreconditions, request.hasPreconditions_withoutPreconditions]
      simp
    dsimp only at h
    rw [hans] at h
    rw [serveBody_etag server found _ h htag, representation_withoutPreconditions]

/-- The tag attached to the body of a file is that of the representation. -/
theorem serveResolved_etag {urlPath tag : Bytes} {filePath : FilePath} {atPath : Metadata}
    (hlocated : server.locate found urlPath filePath atPath = .file path metadata)
    (h : server.serveResolved found request.withoutPreconditions urlPath acceptEncoding filePath
      atPath = .ok (some response))
    (htag : response.bodyEtag = some tag) :
    tag = server.representationEtag lib found (server.fileMeta lib found path metadata)
      (server.representation found request path metadata.len
        (server.fileMeta lib found path metadata) acceptEncoding) := by
  rw [serveResolved, hlocated] at h
  exact serveFile_etag server found request h htag

/-- A policy that answers a tag for every tag, whatever the status and the other fields are. -/
def GoesByTag (policy : Option (ResponsePolicy lib.http)) (answer : Bytes → Bytes) : Prop :=
  ∀ status headers tag, lib.http.get headers (ascii "etag") = some tag →
    policyEtag policy status headers = some (answer tag)

theorem declaredEtag_eq {policy : Option (ResponsePolicy lib.http)} {tag given : Bytes}
    (hcarried : lib.http.get (candidateFields fileMeta tag) (ascii "etag") = some tag)
    (h : policyEtag policy (server.config.status.getD 200) (candidateFields fileMeta tag) =
      some given) :
    server.declaredEtag policy fileMeta tag = given := by
  cases policy with
  | none => exact some.inj (hcarried.symm.trans h)
  | some policy =>
    rw [policyEtag, Option.elim_some] at h
    rw [declaredEtag]
    split at h
    · next hok => rw [if_pos hok, h, getD_some]
    · cases h

/-- A policy answers as it should when it leaves on the stand-in fields the tag it leaves on the
response, and leaves that one alone; neither is enough without the other. When it goes by the tag,
only the second is left: it must answer its own answer for it. -/
theorem preconditionEtag_eq_received_iff {urlPath internal tag : Bytes} {filePath : FilePath}
    {atPath : Metadata} (transport : Transport) (vary : Bool)
    (htags : request.comparesEntityTags = true)
    (hlocated : server.locate found urlPath filePath atPath = .file path metadata)
    (hserved : server.serveResolved found request.withoutPreconditions urlPath acceptEncoding
      filePath atPath = .ok (some response))
    (hinternal : response.bodyEtag = some internal)
    (hreceived : transport.receivedEtag request.responsePolicy (response.withVaryAccept vary) =
      some tag)
    -- the other fields are header text, so the fields have the tag they are built with
    (hbody : lib.http.get (transport.bodyFields (response.withVaryAccept vary)) (ascii "etag") =
      some internal)
    (hcandidate : ∀ other, lib.http.accepts (ascii "etag") other = true →
      lib.http.get (candidateFields (server.fileMeta lib found path metadata) other)
        (ascii "etag") = some other) :
    let standIn := fun other => policyEtag request.responsePolicy (server.config.status.getD 200)
      (candidateFields (server.fileMeta lib found path metadata) other)
    let Compared := server.preconditionEtag found request path metadata.len
      (server.fileMeta lib found path metadata) acceptEncoding = tag
    (∀ given again, standIn internal = some given → standIn given = some again →
      given = tag ∨ again = given → (Compared ↔ given = tag ∧ again = given)) ∧
    ∀ answer, GoesByTag request.responsePolicy answer →
      (Compared ↔ answer (answer internal) = answer internal) := by
  intro standIn Compared
  have htexts : lib.http.accepts (ascii "etag") internal = true :=
    lib.http.accepts_of_mem (List.mem_of_head? hbody)
  have hcompared : ∀ given again, standIn internal = some given → standIn given = some again →
      (Compared ↔ again = tag) := by
    intro given again hgiven hagain
    have hsecond := hcandidate given (accepts_of_policyEtag hgiven)
    simp only [Compared]
    rw [preconditionEtag, if_pos htags, selectedEtag_eq, ← serveResolved_etag server found request
      hlocated hserved hinternal, server.declaredEtag_eq (hcandidate internal htexts) hgiven,
      server.declaredEtag_eq hsecond hagain]
  refine ⟨fun given again hgiven hagain heither => ?_, fun answer hanswer => ?_⟩
  · rw [hcompared given again hgiven hagain]
    rcases heither with rfl | rfl <;> simp
  · have hgiven : standIn internal = some (answer internal) :=
      hanswer _ _ _ (hcandidate internal htexts)
    have hagain : standIn (answer internal) = some (answer (answer internal)) :=
      hanswer _ _ _ (hcandidate _ (accepts_of_policyEtag hgiven))
    have htag : answer internal = tag :=
      some.inj ((hanswer _ _ _ hbody).symm.trans hreceived)
    rw [hcompared _ _ hgiven hagain, htag]

end FileServer

namespace OneFile

/-- A library in which dates and media types are unknown and nothing gets smaller. -/
def lib : StaticLib where
  http := FieldLines.maps
  quality := wholeQualities
  fmtHttpDate _ := []
  parseHttpDate _ := none
  mimeFromPath _ := none
  compress _ _ input := some input

def file : Metadata := ⟨false, true, 1, none⟩

def found : Snapshot where
  tree := ⟨fun path => if path = [ascii "a"] then some file else none,
    fun path => if path = [ascii "a"] then some [0x41] else none⟩
  metaCache _ := none
  compressCache _ := none
  compressCacheAfterWait _ := none
  contentCache _ := none
  generateListing _ _ := none
  now := 0

def server : FileServer where
  config :=
    { root := [], index := [], browse := false, compress := false, minimumLength := 0
      gzipLevel := 5, encodings := [], precompressed := [], hides := fun _ => false
      status := none, etagFileExtensions := [] }
  encodePolicy := ⟨false, [], [], []⟩

def applyPolicy (policy : ResponseHeaderPolicy) : ResponsePolicy lib.http := fun status headers =>
  match policy.applyPingora lib.http.toHttpLib ⟨status, headers⟩ (ascii "id") none with
  | .ok response => (true, response.headers)
  | .error _ => (false, headers)

def request (policy : ResponseHeaderPolicy) : FileRequest lib.http where
  method := ascii "GET"
  headers := FieldLines.ofPairs [(ascii "if-none-match", ascii "\"v1\"")]
  responsePolicy := some (applyPolicy policy)

def fixedTag : ResponseHeaderPolicy where
  set := [⟨ascii "ETag", ascii "\"v1\"", none⟩]

/-- Puts `v1-` in front of what stands between the quotes of a tag. -/
def releaseTag : ResponseHeaderPolicy where
  replace := [⟨ascii "ETag", fun value => [tagQuote] ++ ascii "v1-" ++ value.drop 1⟩]

def served : ServedResponse := .buffered
  { content := [0x41]
    contentType := ascii "application/octet-stream"
    contentLength := ascii "1"
    path := [ascii "a"]
    status := 200
    contentRange := none
    lastModified := none
    etag := some (ascii "\"0-1\"")
    contentEncoding := none
    varyAcceptEncoding := true
    varyAccept := false }

theorem served_eq (policy : ResponseHeaderPolicy) :
    server.serveResolved found (request policy).withoutPreconditions (ascii "/a") none [ascii "a"]
      file = .ok (some served) := by
  rfl

theorem get_candidateFields (tag : Bytes) (h : lib.http.accepts (ascii "etag") tag = true) :
    lib.http.get (FileServer.candidateFields (server.fileMeta lib found [ascii "a"] file) tag)
      (ascii "etag") = some tag := by
  change (lib.http.getAll (lib.http.insert (lib.http.insert (lib.http.insert (lib.http.insert _ _ _)
    _ _) _ _) _ _) _).head? = _
  rw [lib.http.getAll_insert (by decide), lib.http.getAll_insert (by decide),
    lib.http.getAll_insert (by decide), lib.http.getAll_insert h]
  rfl

theorem preconditionEtag_eq_received_fixedTag :
    (request fixedTag).comparesEntityTags = true ∧
      server.preconditionEtag found (request fixedTag) [ascii "a"] 1
        (server.fileMeta lib found [ascii "a"] file) none = ascii "\"v1\"" := by
  refine ⟨by decide, ?_⟩
  exact ((server.preconditionEtag_eq_received_iff found (request fixedTag) .http1or2 false
    (by decide) (by rfl) (served_eq fixedTag) (by rfl) (by decide) (by decide)
    get_candidateFields).1 (ascii "\"v1\"") (ascii "\"v1\"") (by decide) (by decide)
    (.inl rfl)).mpr ⟨rfl, rfl⟩

/-- A client that holds the tag it was sent is answered as if it held another one. -/
theorem preconditionEtag_ne_received_releaseTag :
    server.serveResolved found (request releaseTag).withoutPreconditions (ascii "/a") none
        [ascii "a"] file = .ok (some served) ∧
      Transport.http1or2.receivedEtag (request releaseTag).responsePolicy served =
        some (ascii "\"v1-0-1\"") ∧
      server.preconditionEtag found (request releaseTag) [ascii "a"] 1
        (server.fileMeta lib found [ascii "a"] file) none = ascii "\"v1-v1-0-1\"" :=
  ⟨served_eq releaseTag, by decide, by decide⟩

end OneFile

end Pingclair
