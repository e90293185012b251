import Civan.Http.BodyAssembly
import Civan.Http.MapType

/-!
# Printing requests and responses

`dump` prints a start line, the header map, a `connection` line of its own in place of
the one in the map, and a `content-length` line if there is a body.  A message without
a body gets no such line, and a `content-length` that the user has put into the map is
printed all the same: the receiver then waits for a body that does not come.  The start
line is printed as it is, with the line ends that a path or a reason may have.

Messages are not websocket messages here.  `dump` of requests and of responses differ
in the start line, in the place of the `connection` line and in the cookies.
-/

namespace Civan
namespace Http

section Model

def crlf : List UInt8 :=
  [13, 10]

/-- `HttpMethodToString`. -/
def httpMethodToString (m : HttpMethod) : List UInt8 :=
  match httpMethodMap.find? fun e => e.1 = m with
  | some e => bytesOf e.2
  | none => bytesOf "<unknown>"

/-- `HTTP_STATUS_MAP`: the values of `HttpStatus` and their texts. -/
def httpStatusMap : List (ℕ × String) :=
  [(100, "Continue"), (101, "Switching Protocols"), (102, "Processing"), (200, "OK"),
    (201, "Created"), (202, "Accepted"), (203, "Non-Authoritative Information"),
    (204, "No Content"), (205, "Reset Content"), (206, "Partial Content"),
    (207, "Multi-Status"), (208, "Already Reported"), (226, "IM Used"),
    (300, "Multiple Choices"), (301, "Moved Permanently"), (302, "Found"),
    (303, "See Other"), (304, "Not Modified"), (305, "Use Proxy"),
    (307, "Temporary Redirect"), (308, "Permanent Redirect"), (400, "Bad Request"),
    (401, "Unauthorized"), (402, "Payment Required"), (403, "Forbidden"),
    (404, "Not Found"), (405, "Method Not Allowed"), (406, "Not Acceptable"),
    (407, "Proxy Authentication Required"), (408, "Request Timeout"), (409, "Conflict"),
    (410, "Gone"), (411, "Length Required"), (412, "Precondition Failed"),
    (413, "Payload Too Large"), (414, "URI Too Long"), (415, "Unsupported Media Type"),
    (416, "Range Not Satisfiable"), (417, "Expectation Failed"),
    (421, "Misdirected Request"), (422, "Unprocessable Entity"), (423, "Locked"),
    (424, "Failed Dependency"), (426, "Upgrade Required"),
    (428, "Precondition Required"), (429, "Too Many Requests"),
    (431, "Request Header Fields Too Large"), (451, "Unavailable For Legal Reasons"),
    (500, "Internal Server Error"), (501, "Not Implemented"), (502, "Bad Gateway"),
    (503, "Service Unavailable"), (504, "Gateway Timeout"),
    (505, "HTTP Version Not Supported"), (506, "Variant Also Negotiates"),
    (507, "Insufficient Storage"), (508, "Loop Detected"), (510, "Not Extended"),
    (511, "Network Authentication Required")]

/-- `HttpStatusToString`. -/
def httpStatusToString (status : ℕ) : List UInt8 :=
  match httpStatusMap.find? fun e => e.1 = status with
  | some e => bytesOf e.2
  | none => bytesOf "<unknown>"

/-- `HttpResponse`. -/
structure HttpResponse where
  status : ℕ
  version : UInt8
  close : Bool
  body : List UInt8
  reason : List UInt8
  headers : MapType
  cookies : List (List UInt8)
deriving DecidableEq, Repr

/-- `os << n` for an unsigned number. -/
def decimal (n : ℕ) : List UInt8 :=
  bytesOf n.repr

/-- `HTTP/` and the two digits of the version. -/
def versionText (version : UInt8) : List UInt8 :=
  bytesOf "HTTP/" ++ decimal (version >>> 4).toNat ++ bytesOf "." ++
    decimal (version &&& 0x0F).toNat

/-- `i.first: i.second`. -/
def fieldLine (i : List UInt8 × List UInt8) : List UInt8 :=
  i.1 ++ bytesOf ": " ++ i.2

def connectionValue (close : Bool) : List UInt8 :=
  if close then bytesOf "close" else bytesOf "keep-alive"

/-- The `connection` line. -/
def dumpConnection (close : Bool) : List UInt8 :=
  bytesOf "connection: " ++ connectionValue close ++ crlf

/-- The loop over the header map. -/
def dumpHeaders (headers : MapType) : List UInt8 :=
  headers.flatMap fun i =>
    if foldCase i.1 = foldCase (bytesOf "connection") then [] else fieldLine i ++ crlf

/-- The end of the head, and the body. -/
def dumpBody (body : List UInt8) : List UInt8 :=
  if body ≠ [] then
    bytesOf "content-length: " ++ decimal body.length ++ crlf ++ crlf ++ body
  else
    crlf

/-- The first line of `HttpRequest::dump`. -/
def HttpRequest.startLine (r : HttpRequest) : List UInt8 :=
  httpMethodToString r.method ++ bytesOf " " ++ r.path ++
    (if r.query = [] then [] else bytesOf "?") ++ r.query ++
    (if r.fragment = [] then [] else bytesOf "#") ++ r.fragment ++
    bytesOf " " ++ versionText r.version

/-- `HttpRequest::dump`. -/
def HttpRequest.dump (r : HttpRequest) : List UInt8 :=
  r.startLine ++ crlf ++ dumpConnection r.close ++ dumpHeaders r.headers ++ dumpBody r.body

/-- The first line of `HttpResponse::dump`. -/
def HttpResponse.startLine (r : HttpResponse) : List UInt8 :=
  versionText r.version ++ bytesOf " " ++ decimal r.status ++ bytesOf " " ++
    (if r.reason = [] then httpStatusToString r.status else r.reason)

/-- `HttpResponse::dump`. -/
def HttpResponse.dump (r : HttpResponse) : List UInt8 :=
  r.startLine ++ crlf ++ dumpHeaders r.headers ++
    (r.cookies.flatMap fun i => bytesOf "Set-Cookie: " ++ i ++ crlf) ++
    dumpConnection r.close ++ dumpBody r.body

end Model

section Reader

/-- The lines before the first empty line, and what follows it; `line` is the part of the
current line that has been read. -/
def splitAtEmptyLine (line : List UInt8) :
    List UInt8 → Option (List (List UInt8) × List UInt8)
  | [] => none
  | [_] => none
  | c :: d :: rest =>
    if c = 13 ∧ d = 10 then
      if line = [] then
        some ([], rest)
      else
        (splitAtEmptyLine [] rest).map fun r => (line :: r.1, r.2)
    else
      splitAtEmptyLine (line ++ [c]) (d :: rest)

/-- The lines of a text that is followed by a line end; `line` is the part of the first one
that has been read. -/
def linesOf (line : List UInt8) : List UInt8 → List (List UInt8)
  | [] => [line]
  | [c] => [line ++ [c]]
  | c :: d :: rest =>
    if c = 13 ∧ d = 10 then line :: linesOf [] rest else linesOf (line ++ [c]) (d :: rest)

/-- A header line: the name up to the colon, and the value after the blanks. -/
def readField (line : List UInt8) : List UInt8 × List UInt8 :=
  (line.takeWhile (· ≠ 58), ((line.dropWhile (· ≠ 58)).drop 1).dropWhile (· = 32))

/-- What the reader keeps of a message. -/
structure Received where
  fields : List (List UInt8 × List UInt8)
  body : List UInt8
deriving DecidableEq, Repr

/-- The header map after `setHeader` for each field in order. -/
def Received.data (r : Received) : HttpRequest :=
  r.fields.foldl (fun d i => d.setHeader i.1 i.2) (HttpRequest.new 0x11 true)

/-- The first line is the start line. -/
def readMessage (bytes : List UInt8) : Option Received :=
  (splitAtEmptyLine [] bytes).map fun r =>
    { fields := r.1.tail.map readField
      body := r.2 }

end Reader

section HeaderMap

variable {key : List UInt8} {fields : List (List UInt8 × List UInt8)}

theorem find_foldl_of_ne (hne : ∀ i ∈ fields, foldCase i.1 ≠ foldCase key) (d : HttpRequest) :
    MapType.find key (fields.foldl (fun d i => d.setHeader i.1 i.2) d).headers =
      MapType.find key d.headers := by
  induction fields generalizing d with
  | nil => rfl
  | cons i fields ih =>
    rw [List.foldl_cons, ih (fun j hj => hne j (List.mem_cons_of_mem i hj)),
      HttpRequest.setHeader, find_set, if_neg (hne i List.mem_cons_self)]

/-- Among fields with different names there is at most one of a given name, and it is
found. -/
theorem find_foldl_of_pairwise
    (hdistinct : fields.Pairwise fun i j => foldCase i.1 ≠ foldCase j.1) (d : HttpRequest) :
    MapType.find key (fields.foldl (fun d i => d.setHeader i.1 i.2) d).headers =
      (MapType.find key fields).or (MapType.find key d.headers) := by
  induction fields generalizing d with
  | nil => rfl
  | cons i fields ih =>
    obtain ⟨hhead, htail⟩ := List.pairwise_cons.mp hdistinct
    rw [List.foldl_cons, find_cons]
    by_cases hi : foldCase i.1 = foldCase key
    · rw [if_pos hi, find_foldl_of_ne (fun j hj => hi ▸ (hhead j hj).symm),
        HttpRequest.setHeader, find_set, if_pos hi]
      rfl
    · rw [if_neg hi, ih htail, HttpRequest.setHeader, find_set, if_neg hi]

end HeaderMap

section Lines

variable {line rest : List UInt8}

theorem splitAtEmptyLine_append {text : List UInt8}
    (hlines : ∀ l ∈ linesOf line text, l ≠ []) (rest : List UInt8) :
    splitAtEmptyLine line (text ++ crlf ++ rest) =
      (splitAtEmptyLine [] rest).map fun r => (linesOf line text ++ r.1, r.2) := by
  induction line, text using linesOf.induct with
  | case1 line =>
    have hline : line ≠ [] := hlines line (by simp [linesOf])
    simp [splitAtEmptyLine, linesOf, crlf, hline]
  | case2 line c => simp [splitAtEmptyLine, linesOf, crlf]
  | case3 line c d text hend ih =>
    rw [linesOf, if_pos hend] at hlines ⊢
    have hline : line ≠ [] := hlines line List.mem_cons_self
    have htail := ih fun l hl => hlines l (List.mem_cons_of_mem line hl)
    rw [List.cons_append, List.cons_append, List.cons_append, List.cons_append,
      splitAtEmptyLine, if_pos hend, if_neg hline, htail, Option.map_map]
    rfl
  | case4 line c d text hend ih =>
    rw [linesOf, if_neg hend] at hlines ⊢
    rw [← ih hlines, List.cons_append, List.cons_append, List.cons_append, List.cons_append,
      splitAtEmptyLine, if_neg hend]

/-- After an empty line in a text, all that follows the text is part of the body. -/
theorem length_le_of_empty_line {text : List UInt8} {r : List (List UInt8) × List UInt8}
    (hempty : [] ∈ linesOf line text)
    (hsplit : splitAtEmptyLine line (text ++ crlf ++ rest) = some r) :
    rest.length ≤ r.2.length := by
  induction line, text using linesOf.induct generalizing r with
  | case1 line =>
    obtain rfl : [] = line := List.mem_singleton.mp hempty
    cases hsplit
    exact Nat.le_refl _
  | case2 line c => simp [linesOf] at hempty
  | case3 line c d text hend ih =>
    rw [linesOf, if_pos hend] at hempty
    rw [List.cons_append, List.cons_append, List.cons_append, List.cons_append,
      splitAtEmptyLine, if_pos hend] at hsplit
    by_cases hline : line = []
    · rw [if_pos hline] at hsplit
      cases hsplit
      rw [List.length_append]
      exact Nat.le_add_left _ _
    · rw [if_neg hline] at hsplit
      obtain ⟨r', hr', rfl⟩ := Option.map_eq_some_iff.mp hsplit
      exact ih (r := r') ((List.mem_cons.mp hempty).resolve_left (Ne.symm hline)) hr'
  | case4 line c d text hend ih =>
    rw [linesOf, if_neg hend] at hempty
    rw [List.cons_append, List.cons_append, List.cons_append, List.cons_append,
      splitAtEmptyLine, if_neg hend] at hsplit
    exact ih hempty hsplit

theorem linesOf_of_not_mem {text : List UInt8} (htext : (13 : UInt8) ∉ text) :
    linesOf line text = [line ++ text] := by
  induction line, text using linesOf.induct with
  | case1 line => simp [linesOf]
  | case2 line c => rfl
  | case3 line c d text hend ih => exact absurd (hend.1 ▸ List.mem_cons_self) htext
  | case4 line c d text hend ih =>
    rw [linesOf, if_neg hend, ih fun h => htext (List.mem_cons_of_mem c h), List.append_assoc]
    rfl

theorem linesOf_ne_nil (line text : List UInt8) : linesOf line text ≠ [] := by
  induction line, text using linesOf.induct with
  | case1 | case2 => simp [linesOf]
  | case3 line c d text hend ih => simp [linesOf, hend]
  | case4 line c d text hend ih =>
    rw [linesOf, if_neg hend]
    exact ih

/-- Lines without a carriage return, each ended, and an empty line are split as they
were put together. -/
theorem splitAtEmptyLine_lines {lines : List (List UInt8)} (body : List UInt8)
    (hlines : ∀ line ∈ lines, line ≠ [] ∧ (13 : UInt8) ∉ line) :
    splitAtEmptyLine [] (lines.flatMap (· ++ crlf) ++ crlf ++ body) = some (lines, body) := by
  induction lines with
  | nil => simp [splitAtEmptyLine, crlf]
  | cons line lines ih =>
    obtain ⟨hne, hcr⟩ := hlines line List.mem_cons_self
    have hrest := ih (fun l hl => hlines l (List.mem_cons_of_mem line hl))
    have hone : linesOf [] line = [line] := linesOf_of_not_mem hcr
    rw [List.flatMap_cons, List.append_assoc (line ++ crlf), List.append_assoc (line ++ crlf),
      splitAtEmptyLine_append (by simpa [hone] using hne), hrest, hone]
    rfl

theorem readField_fieldLine {i : List UInt8 × List UInt8} (hname : (58 : UInt8) ∉ i.1) :
    readField (fieldLine i) = (i.1, i.2.dropWhile (· = 32)) := by
  have hall : ∀ c ∈ i.1, decide (c ≠ 58) = true := by
    intro c hc
    rw [decide_eq_true_eq]
    rintro rfl
    exact hname hc
  have hline : fieldLine i = i.1 ++ 58 :: 32 :: i.2 := by simp [fieldLine, bytesOf]
  rw [readField, hline, List.takeWhile_append_of_pos hall, List.dropWhile_append_of_pos hall]
  simp

end Lines

section Framing

/-- A request or a response. -/
inductive Message where
  | request (r : HttpRequest)
  | response (r : HttpResponse)
deriving DecidableEq, Repr

namespace Message

def dump : Message → List UInt8
  | .request r => r.dump
  | .response r => r.dump

def startLine : Message → List UInt8
  | .request r => r.startLine
  | .response r => r.startLine

def headers : Message → MapType
  | .request r => r.headers
  | .response r => r.headers

/-- The cookies that are printed as lines of their own. -/
def cookies : Message → List (List UInt8)
  | .request _ => []
  | .response r => r.cookies

def close : Message → Bool
  | .request r => r.close
  | .response r => r.close

def body : Message → List UInt8
  | .request r => r.body
  | .response r => r.body

end Message

/-- The header map without `connection`. -/
def userFields (headers : MapType) : List (List UInt8 × List UInt8) :=
  List.filter (fun i => foldCase i.1 ≠ foldCase (bytesOf "connection")) headers

def connectionField (close : Bool) : List UInt8 × List UInt8 :=
  (bytesOf "connection", connectionValue close)

/-- The `content-length` line of a message with a body. -/
def lengthFields (body : List UInt8) : List (List UInt8 × List UInt8) :=
  if body ≠ [] then [(bytesOf "content-length", decimal body.length)] else []

/-- The fields of a message before its own `content-length`. -/
def Message.leading : Message → List (List UInt8 × List UInt8)
  | .request r => connectionField r.close :: userFields r.headers
  | .response r =>
    userFields r.headers ++ r.cookies.map (fun c => (bytesOf "Set-Cookie", c)) ++
      [connectionField r.close]

/-- The fields of a message in the order in which they are printed. -/
def Message.fields (m : Message) : List (List UInt8 × List UInt8) :=
  m.leading ++ lengthFields m.body

theorem dumpHeaders_eq (headers : MapType) :
    dumpHeaders headers = (userFields headers).flatMap (fun i => fieldLine i ++ crlf) := by
  induction headers with
  | nil => rfl
  | cons i headers ih =>
    rw [dumpHeaders, List.flatMap_cons, ← dumpHeaders, ih, userFields, userFields]
    by_cases h : foldCase i.1 = foldCase (bytesOf "connection")
    · rw [if_pos h, List.filter_cons_of_neg (by simpa using h), List.nil_append]
    · rw [if_neg h, List.filter_cons_of_pos (by simpa using h), List.flatMap_cons]

theorem dumpConnection_eq (close : Bool) :
    dumpConnection close = fieldLine (connectionField close) ++ crlf := by
  rfl

theorem dumpBody_eq (body : List UInt8) :
    dumpBody body =
      (lengthFields body).flatMap (fun i => fieldLine i ++ crlf) ++ crlf ++ body := by
  by_cases h : body = []
  · simp [dumpBody, lengthFields, h]
  · have hlen : bytesOf "content-length: " = bytesOf "content-length" ++ bytesOf ": " := by decide
    simp [dumpBody, lengthFields, h, fieldLine, hlen]

theorem dump_eq_lines (m : Message) :
    m.dump = (m.startLine :: m.fields.map fieldLine).flatMap (· ++ crlf) ++ crlf ++ m.body := by
  cases m with
  | request r =>
    simp only [Message.dump, HttpRequest.dump, Message.startLine, Message.fields,
      Message.leading, Message.body, dumpHeaders_eq, dumpConnection_eq, dumpBody_eq,
      List.flatMap_cons, List.flatMap_map, List.map_cons, List.cons_append, List.map_append,
      List.flatMap_append, List.append_assoc]
  | response r =>
    have hcookie : ∀ c, bytesOf "Set-Cookie: " ++ c = fieldLine (bytesOf "Set-Cookie", c) :=
      fun _ => rfl
    simp only [Message.dump, HttpResponse.dump, Message.startLine, Message.fields,
      Message.leading, Message.body, dumpHeaders_eq, dumpConnection_eq, dumpBody_eq, hcookie,
      List.flatMap_cons, List.flatMap_map, List.flatMap_nil, List.flatMap_append,
      List.append_assoc, List.nil_append]

/-- A byte of a token. -/
def tokenByte (c : UInt8) : Bool :=
  33 ≤ c && c ≤ 126 && !(bytesOf "()<>@,;:\\\"/[]?=\x7b\x7d").contains c

/-- What the message is made of: the names in the map are tokens, in the order of the map,
and no value and no cookie has a carriage return. -/
structure Message.Printable (m : Message) : Prop where
  ordered : m.headers.Pairwise fun i j => caseInsensitiveLess i.1 j.1 = true
  names : ∀ i ∈ m.headers, ∀ c ∈ i.1, tokenByte c = true
  values : ∀ i ∈ m.headers, (13 : UInt8) ∉ i.2
  cookies : ∀ c ∈ m.cookies, (13 : UInt8) ∉ c

theorem decimal_eq_map (n : ℕ) :
    decimal n = (Nat.toDigits 10 n).map fun d => UInt8.ofNat d.toNat := by
  rw [decimal, bytesOf, Nat.repr_eq_ofList_toDigits, String.toList_ofList]

theorem toNat_digit {n : ℕ} {d : Char} (hd : d ∈ Nat.toDigits 10 n) :
    48 ≤ d.toNat ∧ d.toNat ≤ 57 := by
  have hdigit := Nat.isDigit_of_mem_toDigits (by decide) (by decide) hd
  simp only [Char.isDigit, Bool.and_eq_true, decide_eq_true_eq, ge_iff_le,
    UInt32.le_iff_toNat_le] at hdigit
  exact hdigit

theorem toNat_ofNat_digit {n : ℕ} {d : Char} (hd : d ∈ Nat.toDigits 10 n) :
    (UInt8.ofNat d.toNat).toNat = d.toNat := by
  have hbounds := toNat_digit hd
  rw [UInt8.toNat_ofNat', Nat.mod_eq_of_lt (by omega)]

theorem decimal_digits (n : ℕ) : ∀ c ∈ decimal n, 48 ≤ c ∧ c ≤ 57 := by
  intro c hc
  rw [decimal_eq_map, List.mem_map] at hc
  obtain ⟨d, hd, rfl⟩ := hc
  rw [UInt8.le_iff_toNat_le, UInt8.le_iff_toNat_le, toNat_ofNat_digit hd]
  exact toNat_digit hd

theorem decimal_plain (n : ℕ) :
    (13 : UInt8) ∉ decimal n ∧ (decimal n).dropWhile (· = 32) = decimal n := by
  constructor
  · intro hmem
    exact absurd (decimal_digits n 13 hmem).1 (by decide)
  · cases hdec : decimal n with
    | nil => rfl
    | cons c l =>
      have hc := (decimal_digits n c (hdec ▸ List.mem_cons_self)).1
      have hne : c ≠ 32 := by
        rintro rfl
        exact absurd hc (by decide)
      simp [hne]

theorem tokenByte_ne {name : List UInt8} (h : ∀ c ∈ name, tokenByte c = true) :
    (13 : UInt8) ∉ name ∧ (58 : UInt8) ∉ name := by
  constructor
  · intro hmem
    exact absurd (h 13 hmem) (by decide)
  · intro hmem
    exact absurd (h 58 hmem) (by decide)

/-- The name has no colon, and neither part a carriage return. -/
def Clean (i : List UInt8 × List UInt8) : Prop :=
  (58 : UInt8) ∉ i.1 ∧ (13 : UInt8) ∉ i.1 ∧ (13 : UInt8) ∉ i.2

variable {m : Message}

theorem Message.Printable.userFields_clean (h : m.Printable) :
    ∀ i ∈ userFields m.headers, Clean i := by
  intro i hi
  have hmem := (List.mem_filter.mp hi).1
  have hname := tokenByte_ne (h.names i hmem)
  exact ⟨hname.2, hname.1, h.values i hmem⟩

theorem connectionField_clean (close : Bool) : Clean (connectionField close) := by
  unfold Clean
  cases close with
  | false => decide
  | true => decide

theorem lengthFields_clean (body : List UInt8) : ∀ i ∈ lengthFields body, Clean i := by
  intro i hi
  rw [lengthFields] at hi
  split_ifs at hi
  · have hname : (58 : UInt8) ∉ bytesOf "content-length" ∧
        (13 : UInt8) ∉ bytesOf "content-length" := by decide
    rw [List.mem_singleton.mp hi]
    exact ⟨hname.1, hname.2, (decimal_plain _).1⟩
  · cases hi

theorem Message.Printable.fields_clean (h : m.Printable) : ∀ i ∈ m.fields, Clean i := by
  have huser := h.userFields_clean
  intro i hi
  rcases List.mem_append.mp hi with hi | hi
  · cases m with
    | request r =>
      rcases List.mem_cons.mp hi with rfl | hi
      · exact connectionField_clean r.close
      · exact huser i hi
    | response r =>
      simp only [Message.leading, List.mem_append, List.mem_map, List.mem_singleton] at hi
      rcases hi with (hi | ⟨c, hc, rfl⟩) | rfl
      · exact huser i hi
      · have hname : (58 : UInt8) ∉ bytesOf "Set-Cookie" ∧
            (13 : UInt8) ∉ bytesOf "Set-Cookie" := by decide
        exact ⟨hname.1, hname.2, h.cookies c hc⟩
      · exact connectionField_clean r.close
  · exact lengthFields_clean m.body i hi

/-- The value as the reader takes it. -/
def stripped (i : List UInt8 × List UInt8) : List UInt8 × List UInt8 :=
  (i.1, i.2.dropWhile (· = 32))

theorem stripped_connectionField (close : Bool) :
    stripped (connectionField close) = connectionField close := by
  cases close with
  | false => decide
  | true => decide

/-- The start line is read as one line at least; those after the first are taken for fields. -/
def Message.injected (m : Message) : List (List UInt8 × List UInt8) :=
  (linesOf [] m.startLine).tail.map readField

/-- The fields as they are read, and the body. -/
def Message.received (m : Message) : Received where
  fields := m.injected ++ m.fields.map stripped
  body := m.body

/-- The fields of a message are read as they were printed, and exactly the body. -/
theorem splitAtEmptyLine_fields (h : m.Printable) :
    splitAtEmptyLine [] ((m.fields.map fieldLine).flatMap (· ++ crlf) ++ crlf ++ m.body) =
        some (m.fields.map fieldLine, m.body) ∧
      (m.fields.map fieldLine).map readField = m.fields.map stripped := by
  constructor
  · refine splitAtEmptyLine_lines m.body ?_
    intro line hline
    obtain ⟨i, hi, rfl⟩ := List.mem_map.mp hline
    obtain ⟨_, hname, hvalue⟩ := h.fields_clean i hi
    refine ⟨by simp [fieldLine, bytesOf], ?_⟩
    simp [fieldLine, bytesOf, hname, hvalue]
  · rw [List.map_map]
    refine List.map_congr_left ?_
    intro i hi
    exact readField_fieldLine (h.fields_clean i hi).1

theorem readMessage_dump (h : m.Printable) (hlines : ∀ line ∈ linesOf [] m.startLine, line ≠ []) :
    readMessage m.dump = some m.received := by
  obtain ⟨hsplit, hfields⟩ := splitAtEmptyLine_fields h
  rw [readMessage, dump_eq_lines, List.flatMap_cons, List.append_assoc (m.startLine ++ crlf),
    List.append_assoc (m.startLine ++ crlf), splitAtEmptyLine_append hlines, hsplit]
  simp only [Option.map_some, List.tail_append_of_ne_nil (linesOf_ne_nil _ _), List.map_append,
    hfields]
  rfl

/-- With an empty line in the start line, lines of the head are read as part of the body. -/
theorem body_ne_of_empty_line {r : Received}
    (hempty : [] ∈ linesOf [] m.startLine) (hread : readMessage m.dump = some r) :
    r.body ≠ m.body := by
  rw [readMessage, dump_eq_lines, List.flatMap_cons, List.append_assoc (m.startLine ++ crlf),
    List.append_assoc (m.startLine ++ crlf)] at hread
  obtain ⟨r', hsplit, rfl⟩ := Option.map_eq_some_iff.mp hread
  have hle := length_le_of_empty_line hempty hsplit
  intro heq
  rw [show r'.2 = m.body from heq, List.length_append, List.length_append] at hle
  simp only [crlf, List.length_cons, List.length_nil] at hle
  omega

/-- The `content-length` that the user has put into the map, or else into the start line, as
the reader takes it. -/
def Message.userLength (lexicalCast : List UInt8 → Option (BitVec 64)) (m : Message) :
    BitVec 64 :=
  match MapType.find (bytesOf "content-length") m.headers with
  | none => (Received.data ⟨m.injected, []⟩).getHeaderAs lexicalCast (bytesOf "content-length") 0
  | some v => (lexicalCast (v.dropWhile (· = 32))).getD 0

/-- The fields that are called `connection`. -/
def connections (fields : List (List UInt8 × List UInt8)) : List (List UInt8 × List UInt8) :=
  fields.filter fun i => foldCase i.1 = foldCase (bytesOf "connection")

/-- What was read back: the length is that of the body, the body is the body, and there is
one `connection` value, which says whether the connection is closed. -/
structure ReadsBack (lexicalCast : List UInt8 → Option (BitVec 64)) (m : Message) (r : Received) :
    Prop where
  length : (r.data.getHeaderAs lexicalCast (bytesOf "content-length") 0).toNat = m.body.length
  body : r.body = m.body
  connection : (connections r.fields).map Prod.snd = [connectionValue m.close]

theorem length_ne_connection :
    foldCase (bytesOf "connection") ≠ foldCase (bytesOf "content-length") := by
  decide

theorem find_userFields (headers : MapType) :
    MapType.find (bytesOf "content-length") ((userFields headers).map stripped) =
      (MapType.find (bytesOf "content-length") headers).map fun v => v.dropWhile (· = 32) := by
  induction headers with
  | nil => rfl
  | cons i headers ih =>
    rw [find_cons]
    by_cases hi : foldCase i.1 = foldCase (bytesOf "connection")
    · have hne : foldCase i.1 ≠ foldCase (bytesOf "content-length") := by
        rw [hi]
        exact length_ne_connection
      rw [userFields, List.filter_cons_of_neg (by simpa using hi), ← userFields, ih, if_neg hne]
    · rw [userFields, List.filter_cons_of_pos (by simpa using hi), ← userFields,
        List.map_cons, find_cons, ih]
      by_cases hlen : foldCase i.1 = foldCase (bytesOf "content-length")
      · rw [if_pos hlen]
        simp [stripped, hlen]
      · rw [if_neg hlen]
        simp [stripped, hlen]

theorem Message.Printable.userFields_pairwise (h : m.Printable) :
    ((userFields m.headers).map stripped).Pairwise fun i j => foldCase i.1 ≠ foldCase j.1 := by
  rw [List.pairwise_map]
  refine (h.ordered.filter _).imp ?_
  intro i j hlt heq
  have hfalse : caseInsensitiveLess i.1 j.1 = false := caseInsensitiveLess_irrefl heq
  rw [hfalse] at hlt
  cases hlt

/-- Before its own `content-length` a message has the one of the map, or the one that was
there before. -/
theorem find_leading (h : m.Printable) (d : HttpRequest) :
    MapType.find (bytesOf "content-length")
        ((m.leading.map stripped).foldl (fun d i => d.setHeader i.1 i.2) d).headers =
      ((MapType.find (bytesOf "content-length") m.headers).map
        fun v => v.dropWhile (· = 32)).or (MapType.find (bytesOf "content-length") d.headers) := by
  have hpairwise := h.userFields_pairwise
  rw [← find_userFields]
  cases m with
  | request r =>
    simp only [Message.headers] at hpairwise ⊢
    rw [Message.leading, List.map_cons, List.foldl_cons, find_foldl_of_pairwise hpairwise,
      stripped_connectionField, HttpRequest.setHeader, find_set, connectionField,
      if_neg length_ne_connection]
  | response r =>
    simp only [Message.headers] at hpairwise ⊢
    have hcookie : foldCase (bytesOf "Set-Cookie") ≠ foldCase (bytesOf "content-length") := by
      decide
    have hothers : ∀ i ∈ (r.cookies.map (fun c => (bytesOf "Set-Cookie", c)) ++
        [connectionField r.close]).map stripped,
        foldCase i.1 ≠ foldCase (bytesOf "content-length") := by
      intro i hi
      obtain ⟨j, hj, rfl⟩ := List.mem_map.mp hi
      rcases List.mem_append.mp hj with hj | hj
      · obtain ⟨c, _, rfl⟩ := List.mem_map.mp hj
        exact hcookie
      · rw [List.mem_singleton.mp hj]
        exact length_ne_connection
    rw [Message.leading, List.append_assoc, List.map_append, List.foldl_append,
      find_foldl_of_ne hothers, find_foldl_of_pairwise hpairwise]

theorem connections_eq_nil {fields : List (List UInt8 × List UInt8)}
    (h : ∀ i ∈ fields, foldCase i.1 ≠ foldCase (bytesOf "connection")) :
    connections (fields.map stripped) = [] := by
  rw [connections, List.filter_eq_nil_iff]
  intro i hi
  obtain ⟨j, hj, rfl⟩ := List.mem_map.mp hi
  have hne : foldCase (stripped j).1 ≠ foldCase (bytesOf "connection") := h j hj
  simpa using hne

theorem connections_userFields (headers : MapType) :
    connections ((userFields headers).map stripped) = [] := by
  refine connections_eq_nil ?_
  intro i hi
  simpa using (List.mem_filter.mp hi).2

theorem connections_lengthFields (body : List UInt8) :
    connections ((lengthFields body).map stripped) = [] := by
  refine connections_eq_nil ?_
  intro i hi
  rw [lengthFields] at hi
  split_ifs at hi
  · rw [List.mem_singleton.mp hi]
    exact length_ne_connection.symm
  · cases hi

theorem connections_connectionField (close : Bool) :
    connections [stripped (connectionField close)] = [connectionField close] := by
  rw [stripped_connectionField]
  rfl

/-- Of the fields that are read back the printed one is the only `connection`. -/
theorem connections_fields (m : Message) :
    connections (m.fields.map stripped) = [connectionField m.close] := by
  have happend : ∀ xs ys, connections (xs ++ ys) = connections xs ++ connections ys :=
    fun xs ys => List.filter_append xs ys
  rw [Message.fields, List.map_append, happend, connections_lengthFields, List.append_nil]
  cases m with
  | request r =>
    rw [Message.leading, List.map_cons, ← List.singleton_append, happend,
      connections_userFields, connections_connectionField]
    rfl
  | response r =>
    have hcookies : connections
        ((r.cookies.map fun c => (bytesOf "Set-Cookie", c)).map stripped) = [] := by
      refine connections_eq_nil ?_
      intro i hi
      obtain ⟨c, _, rfl⟩ := List.mem_map.mp hi
      have hne : foldCase (bytesOf "Set-Cookie") ≠ foldCase (bytesOf "connection") := by decide
      exact hne
    rw [Message.leading, List.map_append, List.map_append, happend, happend,
      connections_userFields, hcookies, List.map_singleton, connections_connectionField]
    rfl

variable {lexicalCast : List UInt8 → Option (BitVec 64)}

theorem length_of_body (hbody : m.body ≠ []) :
    m.received.data.getHeaderAs lexicalCast (bytesOf "content-length") 0 =
      (lexicalCast (decimal m.body.length)).getD 0 := by
  have hfields : m.fields.map stripped =
      m.leading.map stripped ++ [(bytesOf "content-length", decimal m.body.length)] := by
    rw [Message.fields, lengthFields, if_pos hbody, List.map_append, List.map_singleton,
      stripped, (decimal_plain _).2]
  rw [HttpRequest.getHeaderAs, Received.data, Message.received, hfields, List.foldl_append,
    List.foldl_append, List.foldl_cons, List.foldl_nil, HttpRequest.setHeader, find_set,
    if_pos rfl]

theorem length_of_nil (h : m.Printable) (hbody : m.body = []) :
    m.received.data.getHeaderAs lexicalCast (bytesOf "content-length") 0 =
      m.userLength lexicalCast := by
  have hfields : m.fields = m.leading := by
    rw [Message.fields, hbody]
    exact List.append_nil _
  rw [HttpRequest.getHeaderAs, Received.data, Message.received, hfields, List.foldl_append,
    find_leading h, Message.userLength]
  cases MapType.find (bytesOf "content-length") m.headers with
  | none => rfl
  | some v => rfl

/-- One `connection` value is the printed one, so the start line may bring none. -/
theorem connections_received_iff (m : Message) :
    (connections m.received.fields).map Prod.snd = [connectionValue m.close] ↔
      connections m.injected = [] := by
  have hfields : connections m.received.fields =
      connections m.injected ++ [connectionField m.close] := by
    rw [← connections_fields]
    exact List.filter_append _ _
  rw [hfields, List.map_append]
  constructor
  · intro heq
    have hlen := congrArg List.length heq
    simp only [List.length_append, List.length_map, List.length_singleton] at hlen
    exact List.length_eq_zero_iff.mp (by omega)
  · intro hnil
    rw [hnil]
    rfl

/--
For every request and response whose names are tokens and whose values and cookies have no
carriage return: what is read back from `dump` has the right length, the body and one right
`connection` value, exactly if no line of the start line is empty or a `connection` field, and
a message without a body has no `content-length` other than zero in its map, or, if there is
none in the map, in the lines of its start line.
-/
theorem dump_framed_iff (h : m.Printable)
    (hcast : lexicalCast (decimal m.body.length) = some (BitVec.ofNat 64 m.body.length))
    (hsize : m.body.length < 2 ^ 64) :
    (∃ r, readMessage m.dump = some r ∧ ReadsBack lexicalCast m r) ↔
      (∀ line ∈ linesOf [] m.startLine, line ≠ []) ∧ connections m.injected = [] ∧
        (m.body = [] → m.userLength lexicalCast = 0) := by
  constructor
  · rintro ⟨r, hr, hback⟩
    have hlines : ∀ line ∈ linesOf [] m.startLine, line ≠ [] := by
      rintro line hline rfl
      exact body_ne_of_empty_line hline hr hback.body
    obtain rfl : m.received = r := Option.some.inj ((readMessage_dump h hlines).symm.trans hr)
    refine ⟨hlines, (connections_received_iff m).mp hback.connection, ?_⟩
    intro hbody
    have hlength := hback.length
    rw [length_of_nil h hbody, hbody] at hlength
    exact BitVec.eq_of_toNat_eq hlength
  · rintro ⟨hlines, hconnections, hzero⟩
    refine ⟨m.received, readMessage_dump h hlines, ?_, rfl,
      (connections_received_iff m).mpr hconnections⟩
    by_cases hbody : m.body = []
    · rw [length_of_nil h hbody, hzero hbody, hbody]
      rfl
    · rw [length_of_body hbody, hcast, Option.getD_some, BitVec.toNat_ofNat,
        Nat.mod_eq_of_lt hsize]

theorem foldl_decimal (n : ℕ) :
    (decimal n).foldl (fun n c => 10 * n + (c.toNat - 48)) 0 = n := by
  have hfold : (decimal n).foldl (fun n c => 10 * n + (c.toNat - 48)) 0 =
      Nat.ofDigitChars 10 (Nat.toDigits 10 n) 0 := by
    rw [decimal_eq_map, List.foldl_map, Nat.ofDigitChars]
    refine List.foldl_ext _ _ _ ?_
    intro k d hd
    rw [toNat_ofNat_digit hd]
    rfl
  rw [hfold, Nat.ofDigitChars_ten_toDigits]

theorem decimalCast_decimal {n : ℕ} (hn : n < 2 ^ 64) :
    decimalCast (decimal n) = some (BitVec.ofNat 64 n) := by
  have hne : decimal n ≠ [] := by
    rw [decimal_eq_map]
    simp
  have hall : (decimal n).all (fun c => 48 ≤ c && c ≤ 57) = true := by
    rw [List.all_eq_true]
    intro c hc
    simpa using decimal_digits n c hc
  rw [decimalCast, if_pos ⟨hne, hall⟩]
  dsimp only
  rw [foldl_decimal, if_pos hn]

/-- A request whose map has a `content-length` of its own. -/
def staleRequest (body : List UInt8) : Message :=
  .request ⟨.post, 0x11, false, bytesOf "/", [], [], body,
    [(bytesOf "Connection", bytesOf "close"), (bytesOf "Content-Length", bytesOf "5")]⟩

theorem staleRequest_printable (body : List UInt8) : (staleRequest body).Printable := by
  have hnames : ((staleRequest []).headers.all fun i => i.1.all tokenByte) = true := by decide
  have hempty : (staleRequest []).Printable :=
    { ordered := by decide
      names := by simpa only [List.all_eq_true] using hnames
      values := by decide
      cookies := by decide }
  exact ⟨hempty.ordered, hempty.names, hempty.values, hempty.cookies⟩

theorem dump_framed_iff_with_body :
    (staleRequest [1, 2]).Printable ∧
      ∃ r, readMessage (staleRequest [1, 2]).dump = some r ∧
        ReadsBack decimalCast (staleRequest [1, 2]) r := by
  have h := staleRequest_printable [1, 2]
  have hsize : (staleRequest [1, 2]).body.length < 2 ^ 64 := by decide
  have hline : linesOf [] (staleRequest [1, 2]).startLine = [(staleRequest [1, 2]).startLine] :=
    linesOf_of_not_mem (by decide)
  refine ⟨h, (dump_framed_iff h (decimalCast_decimal hsize) hsize).mpr ⟨?_, ?_, ?_⟩⟩
  · rw [hline]
    decide
  · rw [Message.injected, hline]
    rfl
  · intro hbody
    cases hbody

/-- A length in the map of a message without a body is what the reader gets. -/
theorem dump_announces_missing_body :
    (staleRequest []).Printable ∧
      ¬ ∃ r, readMessage (staleRequest []).dump = some r ∧
        ReadsBack decimalCast (staleRequest []) r := by
  refine ⟨staleRequest_printable [], ?_⟩
  rintro ⟨r, hr, hback⟩
  have hread : (readMessage (staleRequest []).dump).map
      (fun r => r.data.getHeaderAs decimalCast (bytesOf "content-length") 0) = some 5 := by
    decide
  rw [hr] at hread
  have hfive : r.data.getHeaderAs decimalCast (bytesOf "content-length") 0 = 5 :=
    Option.some.inj hread
  have hlength := hback.length
  rw [hfive] at hlength
  cases hlength

end Framing

end Http
end Civan
