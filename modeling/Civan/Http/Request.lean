import Civan.Http.Http11Parser

/-!
# HttpRequest and its parser

`HttpRequestParser` owns an `http_parser` and an `HttpRequest`; its callbacks
store each reported token in the request.  A callback gets a pointer into the
buffer and a length.  The pointer is the list of bytes from it to the end of the
buffer, so that what a callback reads past the length it was given is visible.
-/

namespace Civan
namespace Http

open MachineInt

/-- The bytes of a string literal. -/
def bytesOf (s : String) : List UInt8 :=
  s.toList.map fun c => UInt8.ofNat c.toNat

inductive HttpMethod where
  | delete
  | get
  | head
  | post
  | put
  | connect
  | options
  | trace
  | copy
  | lock
  | mkcol
  | move
  | propfind
  | proppatch
  | search
  | unlock
  | bind
  | rebind
  | unbind
  | acl
  | report
  | mkactivity
  | checkout
  | merge
  | msearch
  | notify
  | subscribe
  | unsubscribe
  | patch
  | purge
  | mkcalendar
  | link
  | unlink
  | source
  | invalidMethod
deriving DecidableEq, Repr

/-- `HTTP_METHOD_MAP`, in its order. -/
def httpMethodMap : List (HttpMethod × String) :=
  [(.delete, "DELETE"), (.get, "GET"), (.head, "HEAD"), (.post, "POST"), (.put, "PUT"),
    (.connect, "CONNECT"), (.options, "OPTIONS"), (.trace, "TRACE"),
    (.copy, "COPY"), (.lock, "LOCK"), (.mkcol, "MKCOL"), (.move, "MOVE"),
    (.propfind, "PROPFIND"), (.proppatch, "PROPPATCH"), (.search, "SEARCH"),
    (.unlock, "UNLOCK"), (.bind, "BIND"), (.rebind, "REBIND"), (.unbind, "UNBIND"),
    (.acl, "ACL"),
    (.report, "REPORT"), (.mkactivity, "MKACTIVITY"), (.checkout, "CHECKOUT"),
    (.merge, "MERGE"),
    (.msearch, "M-SEARCH"), (.notify, "NOTIFY"), (.subscribe, "SUBSCRIBE"),
    (.unsubscribe, "UNSUBSCRIBE"),
    (.patch, "PATCH"), (.purge, "PURGE"),
    (.mkcalendar, "MKCALENDAR"),
    (.link, "LINK"), (.unlink, "UNLINK"),
    (.source, "SOURCE")]

/-- `CharsToHttpMethod`: the first method whose name starts the characters at `m`. -/
def charsToHttpMethod (m : List UInt8) : HttpMethod :=
  match httpMethodMap.find? fun e => (bytesOf e.2).isPrefixOf m with
  | some e => e.1
  | none => .invalidMethod

/-- `tolower` in the C locale. -/
def toLower (c : UInt8) : UInt8 :=
  if 65 ≤ c ∧ c ≤ 90 then c + 32 else c

/-- The characters `strcasecmp` compares: up to the first NUL, in lower case. -/
def foldCase (s : List UInt8) : List UInt8 :=
  (s.takeWhile (· ≠ 0)).map toLower

/-- `CaseInsensitiveLess`. -/
def caseInsensitiveLess (lhs rhs : List UInt8) : Bool :=
  decide (foldCase lhs < foldCase rhs)

/-- `std::map<std::string, std::string, CaseInsensitiveLess>`, in its order. -/
abbrev MapType :=
  List (List UInt8 × List UInt8)

/-- `m[key] = val`: an equivalent key keeps its first spelling. -/
def MapType.set (key val : List UInt8) : MapType → MapType
  | [] => [(key, val)]
  | (k, v) :: m =>
    if caseInsensitiveLess key k then
      (key, val) :: (k, v) :: m
    else if caseInsensitiveLess k key then
      (k, v) :: MapType.set key val m
    else
      (k, val) :: m

/-- `m.find(key)`. -/
def MapType.find (key : List UInt8) (m : MapType) : Option (List UInt8) :=
  match List.find? (fun e => !caseInsensitiveLess e.1 key && !caseInsensitiveLess key e.1) m with
  | some e => some e.2
  | none => none

structure HttpRequest where
  method : HttpMethod
  version : UInt8
  close : Bool
  path : List UInt8
  query : List UInt8
  fragment : List UInt8
  body : List UInt8
  headers : MapType
deriving DecidableEq, Repr

/-- `HttpRequest(version = 0x11, close = true)`. -/
def HttpRequest.new (version : UInt8) (close : Bool) : HttpRequest where
  method := .get
  version := version
  close := close
  path := bytesOf "/"
  query := []
  fragment := []
  body := []
  headers := []

def HttpRequest.setHeader (r : HttpRequest) (key val : List UInt8) : HttpRequest :=
  { r with headers := MapType.set key val r.headers }

def HttpRequest.getHeader (r : HttpRequest) (key dflt : List UInt8) : List UInt8 :=
  (MapType.find key r.headers).getD dflt

/-- `HttpRequest::init`. -/
def HttpRequest.init (r : HttpRequest) : HttpRequest :=
  let conn := r.getHeader (bytesOf "connection") []
  if conn = [] then
    r
  else
    { r with close := foldCase conn ≠ foldCase (bytesOf "keep-alive") }

/-- `getHeaderAs<uint64_t>(key, def)`; `lexicalCast` is the conversion of the
library it calls, `none` where that throws. -/
def HttpRequest.getHeaderAs (lexicalCast : List UInt8 → Option (BitVec 64))
    (r : HttpRequest) (key : List UInt8) (dflt : BitVec 64) : BitVec 64 :=
  match MapType.find key r.headers with
  | none => dflt
  | some val => (lexicalCast val).getD dflt

structure HttpRequestParser where
  parser : HttpParser
  data : HttpRequest
  error : ℕ
deriving DecidableEq, Repr

/-- `HttpRequestParser()`. -/
def HttpRequestParser.new (queryStart : ℕ) : HttpRequestParser where
  parser := httpParserInit queryStart
  data := HttpRequest.new 0x11 true
  error := 0

/-- What the callbacks write: the request and `m_error`. -/
structure ParserData where
  data : HttpRequest
  error : ℕ
deriving DecidableEq, Repr

/-- `std::string(at, length)`; a wrapped length is beyond `max_size`. -/
def newString (ptr : List UInt8) (length : ℕ) : Except Abort (List UInt8) :=
  if stringMaxSize < length then .error .lengthError else .ok (ptr.take length)

/-- `strncmp(ptr, text, n) == 0`. -/
def strncmpEq : ℕ → List UInt8 → List UInt8 → Bool
  | 0, _, _ => true
  | _ + 1, [], [] => true
  | _ + 1, [], t :: _ => t == 0
  | _ + 1, c :: _, [] => c == 0
  | n + 1, c :: ptr, t :: text => c == t && (c == 0 || strncmpEq n ptr text)

def onRequestMethod (d : ParserData) (ptr : List UInt8) (length : ℕ) :
    Except Abort ParserData :=
  let m := charsToHttpMethod ptr
  if m = .invalidMethod then
    -- the token goes into the log message before the error is set
    match newString ptr length with
    | .error e => .error e
    | .ok _ => .ok { d with error := 1000 }
  else
    .ok { d with data := { d.data with method := m } }

/-- The callbacks that store their token as it is. -/
def storeToken (set : HttpRequest → List UInt8 → HttpRequest)
    (d : ParserData) (ptr : List UInt8) (length : ℕ) :
    Except Abort ParserData :=
  match newString ptr length with
  | .error e => .error e
  | .ok v => .ok { d with data := set d.data v }

def onRequestFragment : ParserData → List UInt8 → ℕ → Except Abort ParserData :=
  storeToken fun r v => { r with fragment := v }

def onRequestPath : ParserData → List UInt8 → ℕ → Except Abort ParserData :=
  storeToken fun r v => { r with path := v }

def onRequestQuery : ParserData → List UInt8 → ℕ → Except Abort ParserData :=
  storeToken fun r v => { r with query := v }

def onRequestVersion (d : ParserData) (ptr : List UInt8) (length : ℕ) :
    Except Abort ParserData :=
  if strncmpEq length ptr (bytesOf "HTTP/1.1") then
    .ok { d with data := { d.data with version := 0x11 } }
  else if strncmpEq length ptr (bytesOf "HTTP/1.0") then
    .ok { d with data := { d.data with version := 0x10 } }
  else
    match newString ptr length with
    | .error e => .error e
    | .ok _ => .ok { d with error := 1001 }

/-- A field with an empty name is dropped. -/
def onRequestHttpField (d : ParserData)
    (field : List UInt8) (flen : ℕ) (value : List UInt8) (vlen : ℕ) :
    Except Abort ParserData :=
  if flen = 0 then
    .ok d
  else
    match newString field flen with
    | .error e => .error e
    | .ok k =>
      match newString value vlen with
      | .error e => .error e
      | .ok v => .ok { d with data := d.data.setHeader k v }

/-- The callbacks the constructor installs; those for the whole URI and for the end
of the head are empty. -/
def onRequest (buffer : List UInt8) (d : ParserData) : Report → Except Abort ParserData
  | .field fieldStart fieldLen mark fpc =>
    onRequestHttpField d (buffer.drop fieldStart) fieldLen (buffer.drop mark) (sizeSub fpc mark)
  | .element .requestMethod start fpc => onRequestMethod d (buffer.drop start) (sizeSub fpc start)
  | .element .requestUri _ _ => .ok d
  | .element .fragment start fpc => onRequestFragment d (buffer.drop start) (sizeSub fpc start)
  | .element .requestPath start fpc => onRequestPath d (buffer.drop start) (sizeSub fpc start)
  | .element .queryString start fpc => onRequestQuery d (buffer.drop start) (sizeSub fpc start)
  | .element .httpVersion start fpc => onRequestVersion d (buffer.drop start) (sizeSub fpc start)
  | .headerDone _ => .ok d

/-- `HttpRequestParser::execute`: the bytes consumed, the parser, and what
`memmove` leaves at the start of the buffer. -/
def HttpRequestParser.execute (M : Machine) (h : HttpRequestParser) (buffer : List UInt8) :
    Except Abort (ℕ × HttpRequestParser × List UInt8) :=
  match httpParserExecute M onRequest h.parser ⟨h.data, h.error⟩ buffer 0 with
  | .error e => .error e
  | .ok (offset, s, d) => .ok (offset, ⟨s, d.data, d.error⟩, buffer.drop offset)

def HttpRequestParser.isFinished (h : HttpRequestParser) : ℤ :=
  httpParserFinish h.parser

def HttpRequestParser.hasError (h : HttpRequestParser) : Bool :=
  h.error ≠ 0 || httpParserHasError h.parser

def HttpRequestParser.getContentLength (lexicalCast : List UInt8 → Option (BitVec 64))
    (h : HttpRequestParser) : BitVec 64 :=
  h.data.getHeaderAs lexicalCast (bytesOf "content-length") 0

end Http
end Civan
