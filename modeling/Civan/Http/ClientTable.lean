import Civan.Http.ClientParser

/-!
# The table generated from `httpclient_parser.rl`

All the states of `httpclient_parser.rl.cc`.  A state is a row of edges, of which the
first one on the byte is taken; state numbers and actions are those of the generated code.

The grammar has four forms of a header line.  While a name could still become
`Connection`, `Content-Length` or `Transfer-Encoding` the machine keeps track of it: each
of these names has a chain of states of its own, from which every other letter leads back
to the states of an ordinary field.  The values `close` and `chunked` and the digits of a
length have such chains as well.
-/

namespace Civan
namespace Http

/-- The bytes from `lo` to `hi` lead to `t`. -/
structure Edge where
  lo : UInt8
  hi : UInt8
  t : ℕ
  acts : List ClientAction
deriving DecidableEq, Repr

/-- The edge of a row that is taken on a byte. -/
def edgeOn (row : List Edge) (c : UInt8) : Option (ℕ × List ClientAction) :=
  (row.find? fun e => e.lo ≤ c ∧ c ≤ e.hi).map fun e => (e.t, e.acts)

/-- The same edge on several ranges of bytes. -/
def edgesOn (t : ℕ) (acts : List ClientAction) (ranges : List (UInt8 × UInt8)) : List Edge :=
  ranges.map fun r => ⟨r.1, r.2, t, acts⟩

/-- An edge on one byte. -/
def on (c : UInt8) (t : ℕ) (acts : List ClientAction) : List Edge :=
  [⟨c, c, t, acts⟩]

/-- An edge on an upper-case letter and on the lower-case one. -/
def onLetter (c : UInt8) (t : ℕ) (acts : List ClientAction) : List Edge :=
  on c t acts ++ on (c + 32) t acts

/-- `token`. -/
def tokenRanges : List (UInt8 × UInt8) :=
  [(33, 33), (35, 39), (42, 43), (45, 46), (48, 57), (65, 90), (94, 122), (124, 124), (126, 126)]

/-- `digit`. -/
def digitRange : List (UInt8 × UInt8) :=
  [(48, 57)]

/-- `space` without the line feed and the carriage return. -/
def blankRanges : List (UInt8 × UInt8) :=
  [(9, 9), (11, 12), (32, 32)]

/-- `space`. -/
def spaceRanges : List (UInt8 × UInt8) :=
  [(9, 13), (32, 32)]

/-- Any other byte. -/
def otherwise (t : ℕ) (acts : List ClientAction) : List Edge :=
  [⟨0, 255, t, acts⟩]

/-- The end of a line, with or without a carriage return. -/
def lineEnd (lf cr : ℕ) (acts : List ClientAction) : List Edge :=
  on 10 lf acts ++ on 13 cr acts

/-- Within a name: `track` keeps to a chain, the colon ends the name. -/
def nameRow (track : List Edge) (colon : ℕ) : List Edge :=
  track ++ on 58 colon [.writeField] ++ edgesOn 21 [] tokenRanges

/-- Within a value: `track` keeps to a chain. -/
def valueRow (track : List Edge) (ends : List Edge) : List Edge :=
  track ++ ends ++ otherwise 23 []

/-- After the colon: blanks are skipped, `track` starts a chain. -/
def gapRow (q : ℕ) (track : List Edge) (lf cr : ℕ) : List Edge :=
  edgesOn q [.startValue] blankRanges ++ lineEnd lf cr [.startValue, .writeValue] ++ track ++
    otherwise 23 [.startValue]

/-- The start of a line: an empty one, or a name that may be one of the three. -/
def lineRow (acts : List ClientAction) : List Edge :=
  on 10 120 (acts ++ [.done]) ++ on 13 3 acts ++ onLetter 67 25 (acts ++ [.startField]) ++
    onLetter 84 44 (acts ++ [.startField]) ++ edgesOn 21 (acts ++ [.startField]) tokenRanges

/-- The start of the line after one of the three names without a value: what follows may
still be the value. -/
def openRow (blank cr final : ℕ) (track : List Edge) : List Edge :=
  edgesOn blank [] blankRanges ++ on 10 final [.done] ++ on 13 cr [] ++ track ++
    onLetter 67 25 [.startField] ++ onLetter 84 44 [.startField] ++
    edgesOn 21 [.startField] tokenRanges

/-- The letters of a chain of values that started on another line. -/
def restRow (q : ℕ) (first : List Edge) : List Edge :=
  edgesOn q [] spaceRanges ++ first

/-- The rows of the states. -/
def clientRow : ℕ → List Edge
  | 1 => on 72 8 [.mark] ++ edgesOn 2 [.mark] [(48, 57), (65, 70), (97, 102)]
  -- a chunk header
  | 2 => on 10 120 [.chunkSize, .done] ++ on 13 3 [.chunkSize] ++ on 59 4 [.chunkSize] ++
      edgesOn 2 [] [(48, 57), (65, 70), (97, 102)]
  | 3 => on 10 120 [.done]
  | 4 => edgesOn 5 [.startField] tokenRanges
  | 5 => on 10 120 [.writeField, .startValue, .writeValue, .done] ++
      on 13 3 [.writeField, .startValue, .writeValue] ++
      on 59 4 [.writeField, .startValue, .writeValue] ++
      on 61 6 [.writeField, .startValue] ++ edgesOn 5 [] tokenRanges
  | 6 => edgesOn 7 [.startValue] tokenRanges
  | 7 => on 10 120 [.writeValue, .done] ++ on 13 3 [.writeValue] ++ on 59 4 [.writeValue] ++
      edgesOn 7 [] tokenRanges
  -- the status line
  | 8 => on 84 9 []
  | 9 => on 84 10 []
  | 10 => on 80 11 []
  | 11 => on 47 12 []
  | 12 => edgesOn 13 [] digitRange
  | 13 => on 46 14 [] ++ edgesOn 13 [] digitRange
  | 14 => edgesOn 15 [] digitRange
  | 15 => on 32 16 [.httpVersion] ++ edgesOn 15 [] digitRange
  | 16 => edgesOn 17 [.mark] digitRange
  | 17 => on 32 18 [.statusCode] ++ edgesOn 17 [] digitRange
  | 18 => edgesOn 19 [.mark] [(0, 9), (11, 255)]
  | 19 => lineEnd 20 24 [.reasonPhrase] ++ otherwise 19 []
  -- an ordinary field
  | 20 => lineRow []
  | 21 => nameRow [] 22
  | 22 => gapRow 22 [] 20 24
  | 23 => valueRow [] (lineEnd 20 24 [.writeValue])
  | 24 => on 10 20 []
  -- `connection`
  | 25 => nameRow (onLetter 79 26 []) 22
  | 26 => nameRow (onLetter 78 27 []) 22
  | 27 => nameRow (onLetter 78 28 [] ++ onLetter 84 101 []) 22
  | 28 => nameRow (onLetter 69 29 []) 22
  | 29 => nameRow (onLetter 67 30 []) 22
  | 30 => nameRow (onLetter 84 31 []) 22
  | 31 => nameRow (onLetter 73 32 []) 22
  | 32 => nameRow (onLetter 79 33 []) 22
  | 33 => nameRow (onLetter 78 34 []) 22
  | 34 => nameRow [] 35
  | 35 => gapRow 35 (onLetter 67 96 [.startValue]) 36 95
  | 36 => openRow 37 89 122 (onLetter 67 90 [.startField])
  | 37 => restRow 37 (onLetter 67 38 [])
  | 38 => onLetter 76 39 []
  | 39 => onLetter 79 40 []
  | 40 => onLetter 83 41 []
  | 41 => onLetter 69 42 []
  | 42 => lineEnd 43 88 []
  | 43 => lineRow [.writeConnectionClose]
  -- `transfer-encoding`
  | 44 => nameRow (onLetter 82 45 []) 22
  | 45 => nameRow (onLetter 65 46 []) 22
  | 46 => nameRow (onLetter 78 47 []) 22
  | 47 => nameRow (onLetter 83 48 []) 22
  | 48 => nameRow (onLetter 70 49 []) 22
  | 49 => nameRow (onLetter 69 50 []) 22
  | 50 => nameRow (onLetter 82 51 []) 22
  | 51 => nameRow (on 45 52 []) 22
  | 52 => nameRow (onLetter 69 53 []) 22
  | 53 => nameRow (onLetter 78 54 []) 22
  | 54 => nameRow (onLetter 67 55 []) 22
  | 55 => nameRow (onLetter 79 56 []) 22
  | 56 => nameRow (onLetter 68 57 []) 22
  | 57 => nameRow (onLetter 73 58 []) 22
  | 58 => nameRow (onLetter 78 59 []) 22
  | 59 => nameRow (onLetter 71 60 []) 22
  | 60 => nameRow [] 61
  | 61 => gapRow 61 (onLetter 67 81 [.startValue]) 62 80
  | 62 => openRow 63 72 121 (onLetter 67 73 [.startValue, .startField])
  | 63 => restRow 63 (onLetter 67 64 [.startValue])
  | 64 => onLetter 72 65 []
  | 65 => onLetter 85 66 []
  | 66 => onLetter 78 67 []
  | 67 => onLetter 75 68 []
  | 68 => onLetter 69 69 []
  | 69 => onLetter 68 70 []
  | 70 => on 10 20 [.writeValue, .transChunked] ++ on 13 71 [.writeValue]
  | 71 => on 10 20 [.transChunked]
  | 72 => on 10 121 [.done] ++ restRow 63 (onLetter 67 64 [.startValue])
  | 73 => nameRow (onLetter 72 74 [] ++ onLetter 79 26 []) 22
  | 74 => nameRow (onLetter 85 75 []) 22
  | 75 => nameRow (onLetter 78 76 []) 22
  | 76 => nameRow (onLetter 75 77 []) 22
  | 77 => nameRow (onLetter 69 78 []) 22
  | 78 => nameRow (onLetter 68 79 []) 22
  | 79 => on 10 20 [.writeValue, .transChunked] ++ on 13 71 [.writeValue] ++ nameRow [] 22
  | 80 => on 10 62 [] ++ restRow 63 (onLetter 67 64 [.startValue])
  | 81 => valueRow (onLetter 72 82 []) (lineEnd 20 24 [.writeValue])
  | 82 => valueRow (onLetter 85 83 []) (lineEnd 20 24 [.writeValue])
  | 83 => valueRow (onLetter 78 84 []) (lineEnd 20 24 [.writeValue])
  | 84 => valueRow (onLetter 75 85 []) (lineEnd 20 24 [.writeValue])
  | 85 => valueRow (onLetter 69 86 []) (lineEnd 20 24 [.writeValue])
  | 86 => valueRow (onLetter 68 87 []) (lineEnd 20 24 [.writeValue])
  | 87 => valueRow [] (on 10 20 [.writeValue, .transChunked] ++ on 13 71 [.writeValue])
  -- the value `close`
  | 88 => on 10 43 []
  | 89 => on 10 122 [.done] ++ restRow 37 (onLetter 67 38 [])
  | 90 => nameRow (onLetter 76 91 [] ++ onLetter 79 26 []) 22
  | 91 => nameRow (onLetter 79 92 []) 22
  | 92 => nameRow (onLetter 83 93 []) 22
  | 93 => nameRow (onLetter 69 94 []) 22
  | 94 => lineEnd 43 88 [] ++ nameRow [] 22
  | 95 => on 10 36 [] ++ restRow 37 (onLetter 67 38 [])
  | 96 => valueRow (onLetter 76 97 []) (lineEnd 20 24 [.writeValue])
  | 97 => valueRow (onLetter 79 98 []) (lineEnd 20 24 [.writeValue])
  | 98 => valueRow (onLetter 83 99 []) (lineEnd 20 24 [.writeValue])
  | 99 => valueRow (onLetter 69 100 []) (lineEnd 20 24 [.writeValue])
  | 100 => valueRow [] (lineEnd 43 88 [.writeValue])
  -- `content-length`
  | 101 => nameRow (onLetter 69 102 []) 22
  | 102 => nameRow (onLetter 78 103 []) 22
  | 103 => nameRow (onLetter 84 104 []) 22
  | 104 => nameRow (on 45 105 []) 22
  | 105 => nameRow (onLetter 76 106 []) 22
  | 106 => nameRow (onLetter 69 107 []) 22
  | 107 => nameRow (onLetter 78 108 []) 22
  | 108 => nameRow (onLetter 71 109 []) 22
  | 109 => nameRow (onLetter 84 110 []) 22
  | 110 => nameRow (onLetter 72 111 []) 22
  | 111 => nameRow [] 112
  | 112 => gapRow 112 (edgesOn 119 [.startValue] digitRange) 113 118
  | 113 => openRow 114 116 123 (edgesOn 117 [.startValue, .startField] digitRange)
  | 114 => restRow 114 (edgesOn 115 [.startValue] digitRange)
  | 115 => lineEnd 20 24 [.writeContentLen, .writeValue] ++ edgesOn 115 [] digitRange
  | 116 => on 10 123 [.done] ++ restRow 114 (edgesOn 115 [.startValue] digitRange)
  | 117 => lineEnd 20 24 [.writeContentLen, .writeValue] ++
      nameRow (edgesOn 117 [] digitRange) 22
  | 118 => on 10 113 [] ++ restRow 114 (edgesOn 115 [.startValue] digitRange)
  | 119 => valueRow (edgesOn 119 [] digitRange)
      (lineEnd 20 24 [.writeContentLen, .writeValue])
  -- behind an empty line after one of the three names without a value
  | 121 => restRow 63 (onLetter 67 64 [.startValue])
  | 122 => restRow 37 (onLetter 67 38 [])
  | 123 => restRow 114 (edgesOn 115 [.startValue] digitRange)
  | _ => []

/-- The jumps of the generated code. -/
def clientNext (cs : ℕ) (c : UInt8) : Option (ℕ × List ClientAction) :=
  edgeOn (clientRow cs) c

/-- The generated machine. -/
def clientMachine : ClientMachine :=
  tableMachine clientNext

/-- `httpclient_parser_first_final`. -/
def httpclientParserFirstFinal : ℕ := 120

def httpclientParserHasError (s : HttpclientParser) : Bool :=
  s.cs == httpclientParserError

/-- Only the first of the final states counts. -/
def httpclientParserIsFinished (s : HttpclientParser) : Bool :=
  s.cs == httpclientParserFirstFinal

def httpclientParserFinish (s : HttpclientParser) : ℤ :=
  if httpclientParserHasError s then -1
  else if httpclientParserIsFinished s then 1
  else 0

def HttpResponseParser.isFinished (h : HttpResponseParser) : ℤ :=
  httpclientParserFinish h.parser

def HttpResponseParser.hasError (h : HttpResponseParser) : Bool :=
  h.error ≠ 0 || httpclientParserHasError h.parser

end Http
end Civan
