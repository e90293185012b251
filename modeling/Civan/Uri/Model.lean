import Civan.Http.Dump
import Civan.Lib.ActionGrammar
import Civan.Lib.Strtol

/-!
# URIs

The grammar of `uri.rl` with its actions, `Uri::Create` on top of the machine generated
from it, and the printing of a `Uri`.

The machine does not know which reading of an authority is right before it has seen the
whole of it: up to an `@` the bytes may be a userinfo or a host with a port.  Both readings
run, and both use the one pointer `mark`.  The actions that build a string do so from
`mark` on, and some of them do not ask whether it is null.
-/

namespace Civan
namespace UriParser

open ActionGrammar Strtol
open Http (bytesOf decimal)

/-- The actions embedded in the grammar. -/
inductive UriAction where
  | marku
  | markh
  | saveScheme
  | savePort
  | saveUserinfo
  | saveHost
  | savePath
  | saveQuery
  | saveFragment
deriving DecidableEq, Repr

section Grammar

/-- Grammars over bytes with the actions of the URI parser. -/
abbrev Rule : Type :=
  Grammar UInt8 UriAction

def byte (b : UInt8) : Rule :=
  .chr fun c => c == b

/-- An alternative of single bytes. -/
def oneOf (bs : List UInt8) : Rule :=
  .chr fun c => bs.contains c

/-- The bytes from `lo` to `hi`. -/
def range (lo hi : UInt8) : Rule :=
  .chr fun c => lo ≤ c && c ≤ hi

def seqs : List Rule → Rule
  | [] => .eps
  | [g] => g
  | g :: gs => .seq g (seqs gs)

def alts : List Rule → Rule
  | [] => .eps
  | [g] => g
  | g :: gs => .alt g (alts gs)

def opt (g : Rule) : Rule :=
  .alt g .eps

def plus (g : Rule) : Rule :=
  .seq g (.star g)

/-- `g{n}`. -/
def times : ℕ → Rule → Rule
  | 0, _ => .eps
  | n + 1, g => .seq g (times n g)

/-- The class `alpha` of the generator. -/
def alpha : Rule :=
  .chr fun c => (65 ≤ c && c ≤ 90) || (97 ≤ c && c ≤ 122)

def digit : Rule :=
  range 48 57

def xdigit : Rule :=
  .chr fun c => (48 ≤ c && c ≤ 57) || (65 ≤ c && c ≤ 70) || (97 ≤ c && c ≤ 102)

/-- `!`, `$`, `&`, `'`, `(`, `)`, `*`, `+`, the comma, `;` and `=`. -/
def subDelims : Rule :=
  oneOf [33, 36, 38, 39, 40, 41, 42, 43, 44, 59, 61]

/-- Letters, digits, `-`, `.`, `_` and `~`. -/
def unreserved : Rule :=
  alts [alpha, digit, oneOf [45, 46, 95, 126]]

/-- `%` and two hexadecimal digits. -/
def pctEncoded : Rule :=
  seqs [byte 37, xdigit, xdigit]

/-- The scheme without its actions: a letter, then letters, digits, `+`, `-` and `.`. -/
def schemeText : Rule :=
  .seq alpha (.star (alts [alpha, digit, oneOf [43, 45, 46]]))

def scheme : Rule :=
  .leave .saveScheme (.enter .marku schemeText)

def userinfo : Rule :=
  .star (alts [unreserved, pctEncoded, subDelims, byte 58])

/-- The `2` of the fourth alternative is the byte two, not the digit. -/
def decOctet : Rule :=
  alts [digit, seqs [range 49 57, digit], seqs [byte 49, times 2 digit],
    seqs [byte 2, range 48 52, digit], seqs [byte 50, byte 53, range 48 53]]

def ipv4Address : Rule :=
  seqs [decOctet, byte 46, decOctet, byte 46, decOctet, byte 46, decOctet]

/-- `xdigit{1,4}`. -/
def h16 : Rule :=
  alts [times 1 xdigit, times 2 xdigit, times 3 xdigit, times 4 xdigit]

/-- `h16 ":"`. -/
def h16Colon : Rule :=
  .seq h16 (byte 58)

def ls32 : Rule :=
  alts [seqs [h16, byte 58, h16], ipv4Address]

/-- `::`. -/
def colons : Rule :=
  .seq (byte 58) (byte 58)

/-- `((h16 ":"){n} h16)?`. -/
def h16Before (n : ℕ) : Rule :=
  opt (.seq (times n h16Colon) h16)

def ipv6Address : Rule :=
  alts [.seq (times 6 h16Colon) ls32,
    seqs [colons, times 5 h16Colon, ls32],
    seqs [h16Before 0, colons, times 4 h16Colon, ls32],
    seqs [h16Before 1, colons, times 3 h16Colon, ls32],
    seqs [h16Before 2, colons, times 2 h16Colon, ls32],
    seqs [h16Before 3, colons, times 1 h16Colon, ls32],
    seqs [h16Before 4, colons, ls32],
    seqs [h16Before 5, colons, h16],
    seqs [h16Before 6, colons]]

/-- `v`, hexadecimal digits, a dot and at least one byte. -/
def ipvFuture : Rule :=
  seqs [byte 118, plus xdigit, byte 46, plus (alts [unreserved, subDelims, byte 58])]

/-- An address between `[` and `]`. -/
def ipLiteral : Rule :=
  seqs [byte 91, alts [ipv6Address, ipvFuture], byte 93]

def regName : Rule :=
  .star (alts [unreserved, pctEncoded, subDelims])

def host : Rule :=
  alts [ipLiteral, ipv4Address, regName]

def port : Rule :=
  .star digit

/-- `host >markh %save_host`. -/
def markedHost : Rule :=
  .leave .saveHost (.enter .markh host)

/-- `port >markh %save_port`. -/
def markedPort : Rule :=
  .leave .savePort (.enter .markh port)

/-- `(":" port >markh %save_port)?`. -/
def portPart : Rule :=
  opt (.seq (byte 58) markedPort)

def authority : Rule :=
  .enter .markh (seqs [opt (.seq (.leave .saveUserinfo userinfo) (byte 64)),
    markedHost, portPart])

/-- Every byte from 128 on is a `pchar`. -/
def pchar : Rule :=
  alts [range 128 255, unreserved, pctEncoded, subDelims, byte 58, byte 64]

/-- `pchar - ":"`. -/
def pcharNc : Rule :=
  alts [range 128 255, unreserved, pctEncoded, subDelims, byte 64]

def segment : Rule :=
  .star pchar

/-- `("/" segment)*`. -/
def segments : Rule :=
  .star (.seq (byte 47) segment)

def pathAbempty : Rule :=
  .seq (opt (.seq (byte 47) segment)) segments

def pathAbsolute : Rule :=
  .seq (byte 47) (opt (.seq (plus pchar) segments))

def pathNoscheme : Rule :=
  .seq (plus pcharNc) segments

def pathRootless : Rule :=
  .seq (plus pchar) segments

/-- `(pchar | "/" | "?")*`. -/
def queryText : Rule :=
  .star (alts [pchar, byte 47, byte 63])

def query : Rule :=
  .leave .saveQuery (.enter .marku queryText)

def fragment : Rule :=
  .leave .saveFragment (.enter .marku queryText)

/-- `("?" query)?`. -/
def queryPart : Rule :=
  opt (.seq (byte 63) query)

/-- `("#" fragment)?`. -/
def fragmentPart : Rule :=
  opt (.seq (byte 35) fragment)

/-- `path_abempty >markh %save_path`. -/
def markedPath : Rule :=
  .leave .savePath (.enter .markh pathAbempty)

/-- `//`. -/
def slashes : Rule :=
  .seq (byte 47) (byte 47)

def hierPart : Rule :=
  alts [seqs [slashes, authority, markedPath], pathAbsolute, pathRootless, .eps]

/-- Its path is not marked. -/
def relativePart : Rule :=
  alts [seqs [slashes, authority, pathAbempty], pathAbsolute, pathNoscheme, .eps]

def relativeRef : Rule :=
  seqs [relativePart, queryPart, fragmentPart]

/-- `URI`. -/
def uriRule : Rule :=
  seqs [scheme, byte 58, hierPart, queryPart, fragmentPart]

def uriReference : Rule :=
  alts [uriRule, relativeRef]

end Grammar

/-- `Uri`, with its strings as bytes and the port as `int32_t`. -/
structure Uri where
  scheme : List UInt8
  userinfo : List UInt8
  host : List UInt8
  path : List UInt8
  query : List UInt8
  fragment : List UInt8
  port : ℤ
deriving DecidableEq, Repr

/-- The constructor. -/
def Uri.new : Uri :=
  ⟨[], [], [], [], [], [], 0⟩

/-- The variables of `Uri::Create` that the actions use. -/
structure ParseState where
  uri : Uri
  mark : Option ℕ
deriving DecidableEq, Repr

/-- A string or a number is read through the null pointer. -/
inductive Fault where
  | nullMark
deriving DecidableEq, Repr

/-- `std::string(mark, fpc - mark)`. -/
def slice (text : List UInt8) (m fpc : ℕ) : List UInt8 :=
  (text.drop m).take (fpc - m)

/-- The actions that save a string without asking for `mark`. -/
def saveString (set : Uri → List UInt8 → Uri)
    (text : List UInt8) (s : ParseState) (fpc : ℕ) : Except Fault ParseState :=
  match s.mark with
  | none => .error .nullMark
  | some m => .ok ⟨set s.uri (slice text m fpc), none⟩

/-- `save_port`: an empty port is not stored. -/
def savePort (text : List UInt8) (s : ParseState) (fpc : ℕ) : Except Fault ParseState :=
  if s.mark = some fpc then
    .ok { s with mark := none }
  else
    match s.mark with
    | none => .error .nullMark
    | some m => .ok ⟨{ s.uri with port := atoi (text.drop m) }, none⟩

/-- `save_userinfo`. -/
def saveUserinfo (text : List UInt8) (s : ParseState) (fpc : ℕ) : ParseState :=
  match s.mark with
  | none => ⟨s.uri, none⟩
  | some m => ⟨{ s.uri with userinfo := slice text m fpc }, none⟩

/-- `save_host`, which keeps `mark`. -/
def saveHost (text : List UInt8) (s : ParseState) (fpc : ℕ) : ParseState :=
  match s.mark with
  | none => s
  | some m => { s with uri := { s.uri with host := slice text m fpc } }

/-- An action at the position `fpc` of the text. -/
def act (text : List UInt8) (s : ParseState) (event : ℕ × UriAction) :
    Except Fault ParseState :=
  match event.2 with
  | .marku => .ok { s with mark := some event.1 }
  | .markh => .ok { s with mark := some event.1 }
  | .saveScheme => saveString (fun u v => { u with scheme := v }) text s event.1
  | .savePort => savePort text s event.1
  | .saveUserinfo => .ok (saveUserinfo text s event.1)
  | .saveHost => .ok (saveHost text s event.1)
  | .savePath => saveString (fun u v => { u with path := v }) text s event.1
  | .saveQuery => saveString (fun u v => { u with query := v }) text s event.1
  | .saveFragment => saveString (fun u v => { u with fragment := v }) text s event.1

/-- The state of the machine before the first byte. -/
def start : List (Thread UInt8 UriAction) :=
  [[uriReference]]

/-- The actions performed over a text, those at its end included. -/
def performed (text : List UInt8) : List (ℕ × UriAction) :=
  events 0 start text ++ (firedAtEnd (read start text)).map fun a => (text.length, a)

/-- `Uri::Create`; `none` is the null pointer it returns. -/
def Uri.create (text : List UInt8) : Except Fault (Option Uri) :=
  match (performed text).foldlM (act text) ⟨Uri.new, none⟩ with
  | .error e => .error e
  | .ok s => .ok (if accepting (read start text) then some s.uri else none)

/-- Is the port left out of the printed URI? -/
def Uri.isDefaultPort (u : Uri) : Bool :=
  if u.port = 0 then true
  else if u.scheme = bytesOf "http" ∨ u.scheme = bytesOf "ws" then u.port = 80
  else if u.scheme = bytesOf "https" ∨ u.scheme = bytesOf "wss" then u.port = 443
  else false

def Uri.getPath (u : Uri) : List UInt8 :=
  if u.path = [] then bytesOf "/" else u.path

def Uri.getPort (u : Uri) : ℤ :=
  if u.port ≠ 0 then u.port
  else if u.scheme = bytesOf "http" ∨ u.scheme = bytesOf "ws" then 80
  else if u.scheme = bytesOf "https" ∨ u.scheme = bytesOf "wss" then 443
  else u.port

/-- `std::to_string` of an `int32_t`. -/
def toStringInt (n : ℤ) : List UInt8 :=
  if n < 0 then bytesOf "-" ++ decimal n.natAbs else decimal n.natAbs

/-- `Uri::toString`, by way of `dump`. -/
def Uri.toString (u : Uri) : List UInt8 :=
  u.scheme ++ bytesOf "://" ++
    u.userinfo ++ (if u.userinfo = [] then [] else bytesOf "@") ++
    u.host ++
    (if u.isDefaultPort then [] else bytesOf ":" ++ toStringInt u.port) ++
    u.getPath ++
    (if u.query = [] then [] else bytesOf "?") ++ u.query ++
    (if u.fragment = [] then [] else bytesOf "#") ++ u.fragment

/-- An empty port at the end of the text: `save_port` has reset the mark, and `save_path`
uses it. -/
example : Uri.create (bytesOf "http://h:") = .error .nullMark := by
  decide

end UriParser
end Civan
