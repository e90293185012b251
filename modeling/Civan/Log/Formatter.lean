import Civan.Lib.Loop

/-!
# LogFormatter::init

`init` scans the pattern with one index and splits it into literal text and items,
then looks every item up in a table.  An item is `%` and a name, with a format in braces
or without.

Whatever the pattern, both loops of the scan come to an end.  One lemma for each way the
index moves on says what the inner loop returns and what a round of the outer loop does
with the pieces found so far.
-/

namespace Civan
namespace LogFormatter

open Loop

section Model

/-- `fmt_status`: the values 0, 1 and 2. -/
inductive FmtStatus where
  | name
  | format
  | closed
deriving DecidableEq, Repr

/-- The variables of the scan of one item. -/
structure ItemScan where
  n : ℕ
  status : FmtStatus
  str : List Char
  fmt : List Char
  fmtBegin : ℕ
deriving DecidableEq, Repr

/-- `isalpha`, in the C locale. -/
def isalpha (c : Char) : Bool :=
  c.isAlpha

def substr (p : List Char) (pos count : ℕ) : List Char :=
  (p.drop pos).take count

/-- One round of the inner loop, for the `%` at `i`. -/
def itemRound (p : List Char) (i : ℕ) (s : ItemScan) : Option (Round ItemScan) :=
  match p[s.n]? with
  | none => some (.exit s)
  | some c =>
    if s.status = .name ∧ isalpha c = false ∧ c ≠ '{' ∧ c ≠ '}' then
      some (.exit s)
    else if s.status = .name ∧ c = '{' then
      some (.next { s with
        str := substr p (i + 1) (s.n - i - 1)
        status := .format
        fmtBegin := s.n
        n := s.n + 1 })
    else if s.status = .format ∧ c = '}' then
      some (.exit { s with
        fmt := substr p (s.fmtBegin + 1) (s.n - s.fmtBegin - 1)
        status := .closed })
    else if s.n + 1 = p.length ∧ s.str = [] then
      some (.next { s with n := s.n + 1, str := p.drop (i + 1) })
    else
      some (.next { s with n := s.n + 1 })

/-- The inner loop. -/
def scanItem (p : List Char) (i : ℕ) : Option ItemScan :=
  run (itemRound p i) (p.length + 1)
    { n := i + 1, status := .name, str := [], fmt := [], fmtBegin := 0 }

/-- An element of `vec`: string, format and type. -/
structure Entry where
  str : List Char
  fmt : List Char
  isItem : Bool
deriving DecidableEq, Repr

/-- The variables of the scan. -/
structure Scan where
  i : ℕ
  vec : List Entry
  nstr : List Char
  error : Bool
deriving DecidableEq, Repr

/-- Pending literal text goes to `vec`. -/
def Scan.flush (s : Scan) (fmt : List Char) : Scan :=
  if s.nstr = [] then
    s
  else
    { s with vec := s.vec ++ [{ str := s.nstr, fmt, isItem := false }], nstr := [] }

/-- An item goes to `vec`, and the scan goes on at `i`. -/
def Scan.push (s : Scan) (str fmt : List Char) (i : ℕ) : Scan :=
  { s with vec := s.vec ++ [{ str, fmt, isItem := true }], i }

def Scan.append (s : Scan) (c : Char) : Scan :=
  { s with nstr := s.nstr ++ [c], i := s.i + 1 }

/-- What becomes of an item, by `fmt_status`.  One that is not closed is scanned again
behind its `%`. -/
def Scan.takeItem (p : List Char) (s : Scan) (item : ItemScan) : Scan :=
  match item.status with
  | .name =>
    let str := substr p (s.i + 1) (item.n - s.i - 1)
    (s.flush []).push str item.fmt (item.n - 1 + 1)
  | .format => { s.push "<<pattern_error>>".toList item.fmt (s.i + 1) with error := true }
  | .closed => (s.flush []).push item.str item.fmt (item.n + 1)

/-- One round of the outer loop, with the `++i` at its end. -/
def scanRound (p : List Char) (s : Scan) : Option (Round Scan) :=
  match p[s.i]? with
  | none => some (.exit s)
  | some c =>
    if c ≠ '%' then
      some (.next (s.append c))
    else if p[s.i + 1]? = some '%' then
      some (.next (s.append '%'))
    else
      (scanItem p s.i).map fun item => .next (s.takeItem p item)

/-- The outer loop, and the literal text at the end. -/
def scan (p : List Char) : Option Scan :=
  (run (scanRound p) (p.length + 1) { i := 0, vec := [], nstr := [], error := false }).map
    fun s => s.flush " ".toList

/-- The classes in `s_format_items`. -/
inductive ItemClass where
  | message
  | level
  | elapse
  | name
  | threadId
  | newLine
  | dateTime
  | filename
  | line
  | tab
  | fiberId
  | threadName
deriving DecidableEq, Repr

def formatItems : List (List Char × ItemClass) :=
  [(['m'], .message), (['p'], .level), (['r'], .elapse), (['c'], .name),
    (['t'], .threadId), (['n'], .newLine), (['d'], .dateTime), (['f'], .filename),
    (['l'], .line), (['T'], .tab), (['F'], .fiberId), (['N'], .threadName)]

inductive FormatItem where
  | string (text : List Char)
  | item (cls : ItemClass) (fmt : List Char)
deriving DecidableEq, Repr

/-- The text that stands for an unknown item. -/
def errorFormat (name : List Char) : List Char :=
  "<<error_format %".toList ++ name ++ ">>".toList

def Entry.formatItem (e : Entry) : FormatItem :=
  if e.isItem = false then
    .string e.str
  else
    match formatItems.lookup e.str with
    | none => .string (errorFormat e.str)
    | some cls => .item cls e.fmt

def Entry.unknown (e : Entry) : Bool :=
  e.isItem && (formatItems.lookup e.str).isNone

/-- `m_items` and `m_error` after `init`. -/
def init (pattern : List Char) : Option (List FormatItem × Bool) :=
  (scan pattern).map fun s =>
    (s.vec.map Entry.formatItem, s.error || s.vec.any Entry.unknown)

end Model

section Positions

variable {p front mid rest : List Char} {c : Char} {n count : ℕ}

theorem getElem?_of_eq_append (hp : p = front ++ c :: rest) (hn : n = front.length) :
    p[n]? = some c := by
  rw [hp, hn]
  simp

theorem substr_of_eq_append (hp : p = front ++ (mid ++ rest)) (hn : n = front.length)
    (hcount : count = mid.length) :
    substr p n count = mid := by
  rw [substr, hp, hn, hcount, List.drop_left, List.take_left]

end Positions

section ItemScan

variable {p name fmt rest : List Char} {i : ℕ} {s s' : ItemScan}

/-- Characters that the inner loop steps over. -/
def Passes : FmtStatus → Char → Prop
  | .name, c => isalpha c = true ∨ c = '}'
  | .format, c => c ≠ '}'
  | .closed, _ => True

theorem itemRound_lt (h : itemRound p i s = some (.next s')) :
    s.n < p.length ∧ s'.n = s.n + 1 := by
  unfold itemRound at h
  cases hc : p[s.n]? with
  | none =>
    rw [hc] at h
    cases h
  | some c =>
    have hlt := (List.getElem?_eq_some_iff.mp hc).1
    rw [hc] at h
    dsimp only at h
    split_ifs at h <;> cases h <;> exact ⟨hlt, rfl⟩

theorem itemRound_measure (s s' : ItemScan) (h : itemRound p i s = some (.next s')) :
    p.length - s'.n < p.length - s.n := by
  have hlt := itemRound_lt h
  omega

theorem itemRound_ne_none (s : ItemScan) : itemRound p i s ≠ none := by
  unfold itemRound
  split
  · exact Option.some_ne_none _
  · split_ifs <;> exact Option.some_ne_none _

theorem scanItem_eq_some {item : ItemScan}
    (h : Returns (itemRound p i) ⟨i + 1, .name, [], [], 0⟩ item) :
    scanItem p i = some item :=
  run_eq_some itemRound_measure h (by omega)

/-- The inner loop comes to an end. -/
theorem exists_scanItem (p : List Char) (i : ℕ) : ∃ item, scanItem p i = some item :=
  exists_run itemRound_measure itemRound_ne_none (by omega)

theorem lt_of_scanItem {item : ItemScan} (h : scanItem p i = some item) : i < item.n := by
  have hmono : ∀ {s r : ItemScan}, Returns (itemRound p i) s r → s.n ≤ r.n := by
    intro s r hr
    induction hr with
    | exit hround =>
      unfold itemRound at hround
      split at hround
      · cases hround
        exact le_rfl
      · split_ifs at hround <;> cases hround <;> exact le_rfl
    | next hround _ ih =>
      have hn := (itemRound_lt hround).2
      omega
  exact hmono (returns_of_run h)

/-- Where the inner loop is after it has stepped over `text`; `str` may have been set at
the end of the pattern. -/
structure Passed (p : List Char) (i : ℕ) (text rest : List Char) (s s' : ItemScan) : Prop where
  n : s'.n = s.n + text.length
  status : s'.status = s.status
  fmt : s'.fmt = s.fmt
  fmtBegin : s'.fmtBegin = s.fmtBegin
  str : rest ≠ [] → s'.str = s.str
  returns : ∀ r, Returns (itemRound p i) s' r → Returns (itemRound p i) s r

theorem itemRound_pass {c : Char} (hc : p[s.n]? = some c) (hpass : Passes s.status c) :
    ∃ s', itemRound p i s = some (.next s') ∧ s'.status = s.status ∧ s'.fmt = s.fmt ∧
      s'.fmtBegin = s.fmtBegin ∧ (s.n + 1 ≠ p.length → s'.str = s.str) := by
  have hstop : ¬ (s.status = .name ∧ isalpha c = false ∧ c ≠ '{' ∧ c ≠ '}') := by
    rintro ⟨hstatus, halpha, -, hbrace⟩
    rw [hstatus] at hpass
    exact hpass.elim (fun h => by rw [h] at halpha; cases halpha) hbrace
  have hopen : ¬ (s.status = .name ∧ c = '{') := by
    rintro ⟨hstatus, rfl⟩
    rw [hstatus] at hpass
    exact hpass.elim (by decide) (by decide)
  have hclose : ¬ (s.status = .format ∧ c = '}') := by
    rintro ⟨hstatus, hbrace⟩
    rw [hstatus] at hpass
    exact hpass hbrace
  unfold itemRound
  rw [hc]
  dsimp only
  rw [if_neg hstop, if_neg hopen, if_neg hclose]
  by_cases hend : s.n + 1 = p.length ∧ s.str = []
  · rw [if_pos hend]
    exact ⟨_, rfl, rfl, rfl, rfl, fun hne => absurd hend.1 hne⟩
  · rw [if_neg hend]
    exact ⟨_, rfl, rfl, rfl, rfl, fun _ => rfl⟩

theorem exists_passed (text rest : List Char) :
    ∀ {s : ItemScan} {front : List Char}, p = front ++ (text ++ rest) → s.n = front.length →
      (∀ c ∈ text, Passes s.status c) → ∃ s', Passed p i text rest s s' := by
  induction text with
  | nil =>
    intro s front _ _ _
    exact ⟨s, rfl, rfl, rfl, rfl, fun _ => rfl, fun _ h => h⟩
  | cons c text ih =>
    intro s front hp hn hpass
    have hc : p[s.n]? = some c := getElem?_of_eq_append hp hn
    obtain ⟨s₁, hround, hstatus, hfmt, hbegin, hstr⟩ :=
      itemRound_pass (i := i) hc (hpass c List.mem_cons_self)
    have hn₁ : s₁.n = (front ++ [c]).length := by
      rw [(itemRound_lt hround).2, hn, List.length_append, List.length_singleton]
    have hp₁ : p = (front ++ [c]) ++ (text ++ rest) := by
      rw [hp]
      simp
    have hpass₁ : ∀ c ∈ text, Passes s₁.status c := by
      intro d hd
      rw [hstatus]
      exact hpass d (List.mem_cons_of_mem c hd)
    obtain ⟨s₂, h⟩ := ih hp₁ hn₁ hpass₁
    refine ⟨s₂, ?_, h.status.trans hstatus, h.fmt.trans hfmt, h.fmtBegin.trans hbegin, ?_, ?_⟩
    · rw [h.n, (itemRound_lt hround).2, List.length_cons]
      omega
    · intro hrest
      have hlt : s.n + 1 ≠ p.length := by
        have hpos := List.length_pos_of_ne_nil hrest
        rw [hp, hn]
        simp only [List.length_append, List.length_cons]
        omega
      exact (h.str hrest).trans (hstr hlt)
    · intro r hr
      exact .next hround (h.returns r hr)

/-- What follows a name without a format. -/
def EndsName (rest : List Char) : Prop :=
  ∀ c ∈ rest.head?, isalpha c = false ∧ c ≠ '{' ∧ c ≠ '}'

/-- At the end of the pattern, or at a character that is in no name. -/
theorem itemRound_stop (hends : ∀ c, p[s.n]? = some c → isalpha c = false ∧ c ≠ '{' ∧ c ≠ '}')
    (hstatus : s.status = .name) :
    itemRound p i s = some (.exit s) := by
  unfold itemRound
  cases hc : p[s.n]? with
  | none => rfl
  | some c =>
    dsimp only
    rw [if_pos ⟨hstatus, hends c hc⟩]

theorem itemRound_open
    (hc : p[s.n]? = some '{')
    (hstatus : s.status = .name) :
    itemRound p i s =
      some (.next ⟨s.n + 1, .format, substr p (i + 1) (s.n - i - 1), s.fmt, s.n⟩) := by
  unfold itemRound
  rw [hc]
  dsimp only
  rw [if_neg (fun hstop => hstop.2.2.1 rfl), if_pos ⟨hstatus, rfl⟩]

theorem itemRound_close
    (hc : p[s.n]? = some '}')
    (hstatus : s.status = .format) :
    itemRound p i s =
      some (.exit { s with
        fmt := substr p (s.fmtBegin + 1) (s.n - s.fmtBegin - 1)
        status := .closed }) := by
  unfold itemRound
  rw [hc]
  dsimp only
  rw [if_neg (fun hstop => hstop.2.2.2 rfl), if_neg (by rw [hstatus]; simp),
    if_pos ⟨hstatus, rfl⟩]

section Item

variable {front : List Char}

/-- The inner loop behind the name. -/
theorem exists_passed_name (hp : p = front ++ '%' :: (name ++ rest))
    (hname : ∀ c ∈ name, isalpha c = true) :
    ∃ s, Passed p front.length name rest ⟨front.length + 1, .name, [], [], 0⟩ s := by
  have hp' : p = (front ++ ['%']) ++ (name ++ rest) := by
    rw [hp]
    simp
  exact exists_passed name rest hp' (by simp) (fun c hc => .inl (hname c hc))

theorem scanItem_name (hp : p = front ++ '%' :: (name ++ rest))
    (hname : ∀ c ∈ name, isalpha c = true) (hrest : EndsName rest) :
    ∃ item, scanItem p front.length = some item ∧ item.status = .name ∧
      item.n = front.length + 1 + name.length ∧ item.fmt = [] := by
  obtain ⟨s, h⟩ := exists_passed_name hp hname
  have hends : ∀ c, p[s.n]? = some c → isalpha c = false ∧ c ≠ '{' ∧ c ≠ '}' := by
    have hhead : p[s.n]? = rest.head? := by
      have hp' : p = (front ++ '%' :: name) ++ rest := by
        rw [hp]
        simp
      have hn : s.n = (front ++ '%' :: name).length := by
        rw [h.n]
        simp
        omega
      rw [hp', hn, List.getElem?_append_right le_rfl, Nat.sub_self, List.head?_eq_getElem?]
    intro c hc
    exact hrest c (hhead ▸ hc)
  have hexit := itemRound_stop (i := front.length) hends h.status
  exact ⟨s, scanItem_eq_some (h.returns s (.exit hexit)), h.status, h.n, h.fmt⟩

theorem scanItem_closed (hp : p = front ++ '%' :: (name ++ '{' :: (fmt ++ '}' :: rest)))
    (hname : ∀ c ∈ name, isalpha c = true)
    (hfmt : '}' ∉ fmt) :
    ∃ item, scanItem p front.length = some item ∧ item.status = .closed ∧
      item.n = front.length + 1 + name.length + 1 + fmt.length ∧ item.str = name ∧
      item.fmt = fmt := by
  have hpname : p = (front ++ ['%']) ++ (name ++ '{' :: (fmt ++ '}' :: rest)) := by
    rw [hp]
    simp
  have hpopen : p = (front ++ '%' :: name) ++ '{' :: (fmt ++ '}' :: rest) := by
    rw [hp]
    simp
  have hpfmt : p = (front ++ '%' :: (name ++ ['{'])) ++ (fmt ++ '}' :: rest) := by
    rw [hp]
    simp
  have hpclose : p = (front ++ '%' :: (name ++ '{' :: fmt)) ++ '}' :: rest := by
    rw [hp]
    simp
  -- the opening brace ends the name
  obtain ⟨s, h⟩ := exists_passed_name hp hname
  have hn : s.n = front.length + 1 + name.length := h.n
  have hopen : p[s.n]? = some '{' := getElem?_of_eq_append hpopen (by simp [hn]; omega)
  have hstr : substr p (front.length + 1) (s.n - front.length - 1) = name :=
    substr_of_eq_append hpname (by simp) (by omega)
  have hround := itemRound_open (i := front.length) hopen h.status
  rw [hstr] at hround
  -- the format goes on to the closing brace
  have hpass : ∀ c ∈ fmt, Passes .format c := by
    rintro c hc rfl
    exact hfmt hc
  obtain ⟨s', h'⟩ :=
    exists_passed (i := front.length) fmt ('}' :: rest) hpfmt
      (s := ⟨s.n + 1, .format, name, s.fmt, s.n⟩) (by simp [hn]; omega) hpass
  have hn' : s'.n = s.n + 1 + fmt.length := h'.n
  have hclose : p[s'.n]? = some '}' :=
    getElem?_of_eq_append hpclose (by simp [hn', hn]; omega)
  have hformat : substr p (s'.fmtBegin + 1) (s'.n - s'.fmtBegin - 1) = fmt := by
    rw [h'.fmtBegin]
    exact substr_of_eq_append hpfmt (by simp [hn]; omega) (by dsimp only; omega)
  have hexit := itemRound_close (i := front.length) hclose h'.status
  rw [hformat] at hexit
  have hreturns := h.returns _ (.next hround (h'.returns _ (.exit hexit)))
  refine ⟨_, scanItem_eq_some hreturns, rfl, ?_, h'.str (List.cons_ne_nil _ _), rfl⟩
  dsimp only
  omega

end Item

end ItemScan

section Scan

/-- What the scan splits a pattern into. -/
inductive Piece where
  | char (c : Char)
  | item (name fmt : List Char)
deriving DecidableEq, Repr

def Entry.pieces (e : Entry) : List Piece :=
  if e.isItem then [.item e.str e.fmt] else e.str.map .char

/-- What stands in `vec`. -/
def Scan.stored (s : Scan) : List Piece :=
  s.vec.flatMap Entry.pieces

/-- What stands in `vec`, and the pending text. -/
def Scan.pieces (s : Scan) : List Piece :=
  s.stored ++ s.nstr.map .char

variable {p : List Char} {s s' r : Scan}

@[simp] theorem Scan.flush_nstr (s : Scan) (fmt : List Char) : (s.flush fmt).nstr = [] := by
  unfold Scan.flush
  split_ifs with h
  · exact h
  · rfl

@[simp] theorem Scan.flush_stored (s : Scan) (fmt : List Char) :
    (s.flush fmt).stored = s.pieces := by
  unfold Scan.flush Scan.pieces
  split_ifs with h
  · rw [h, List.map_nil, List.append_nil]
  · simp [Scan.stored, Entry.pieces]

@[simp] theorem Scan.flush_error (s : Scan) (fmt : List Char) :
    (s.flush fmt).error = s.error := by
  unfold Scan.flush
  split_ifs <;> rfl

theorem Scan.push_stored (s : Scan) (str fmt : List Char) (i : ℕ) :
    (s.push str fmt i).stored = s.stored ++ [.item str fmt] := by
  simp [Scan.push, Scan.stored, Entry.pieces]

theorem Scan.flush_push (s : Scan) (str fmt : List Char) (i : ℕ) :
    ((s.flush []).push str fmt i).stored = s.pieces ++ [.item str fmt] ∧
      ((s.flush []).push str fmt i).nstr = [] := by
  rw [Scan.push_stored, Scan.flush_stored]
  exact ⟨rfl, s.flush_nstr []⟩

theorem Scan.flush_push_pieces (s : Scan) (str fmt : List Char) (i : ℕ) :
    ((s.flush []).push str fmt i).pieces = s.pieces ++ [.item str fmt] := by
  obtain ⟨hstored, hnstr⟩ := s.flush_push str fmt i
  rw [Scan.pieces, hstored, hnstr, List.map_nil, List.append_nil]

/-- What a round does with the pieces.  An item that is not closed goes in front of the
pending text. -/
inductive Grows (s s' : Scan) : Prop
  | literal (c : Char) (hstored : s'.stored = s.stored) (hnstr : s'.nstr = s.nstr ++ [c]) :
      Grows s s'
  | item (str fmt : List Char) (hstored : s'.stored = s.pieces ++ [.item str fmt])
      (hnstr : s'.nstr = []) :
      Grows s s'
  | error (str fmt : List Char) (hstored : s'.stored = s.stored ++ [.item str fmt])
      (hnstr : s'.nstr = s.nstr) :
      Grows s s'

theorem scanRound_literal {c : Char} (hc : p[s.i]? = some c) (hne : c ≠ '%') :
    scanRound p s = some (.next (s.append c)) := by
  unfold scanRound
  rw [hc]
  dsimp only
  rw [if_pos hne]

theorem scanRound_percent (hc : p[s.i]? = some '%') (hnext : p[s.i + 1]? = some '%') :
    scanRound p s = some (.next (s.append '%')) := by
  unfold scanRound
  rw [hc]
  dsimp only
  rw [if_neg (by simp), if_pos hnext]

theorem scanRound_item {item : ItemScan} (hc : p[s.i]? = some '%')
    (hnext : p[s.i + 1]? ≠ some '%') (hitem : scanItem p s.i = some item) :
    scanRound p s = some (.next (s.takeItem p item)) := by
  unfold scanRound
  rw [hc]
  dsimp only
  rw [if_neg (by simp), if_neg hnext, hitem, Option.map_some]

/-- An item goes to `vec` whatever the inner loop finds. -/
theorem exists_scanRound_item (hc : p[s.i]? = some '%') (hnext : p[s.i + 1]? ≠ some '%') :
    ∃ s', scanRound p s = some (.next s') ∧ s.i < s'.i ∧ ∃ str fmt,
      (s'.stored = s.pieces ++ [.item str fmt] ∧ s'.nstr = []) ∨
        (s'.stored = s.stored ++ [.item str fmt] ∧ s'.nstr = s.nstr) := by
  obtain ⟨item, hitem⟩ := exists_scanItem p s.i
  have hlt := lt_of_scanItem hitem
  refine ⟨_, scanRound_item hc hnext hitem, ?_⟩
  unfold Scan.takeItem
  cases item.status with
  | name =>
    have hi : s.i < item.n - 1 + 1 := by omega
    exact ⟨hi, _, _, .inl (s.flush_push _ _ _)⟩
  | format => exact ⟨Nat.lt_succ_self s.i, _, _, .inr ⟨s.push_stored _ _ (s.i + 1), rfl⟩⟩
  | closed =>
    have hi : s.i < item.n + 1 := by omega
    exact ⟨hi, _, _, .inl (s.flush_push _ _ _)⟩

theorem scanRound_cases (p : List Char) (s : Scan) :
    scanRound p s = some (.exit s) ∨
      ∃ s', scanRound p s = some (.next s') ∧ Grows s s' ∧ s.i < s'.i ∧ s.i < p.length := by
  cases hc : p[s.i]? with
  | none =>
    left
    unfold scanRound
    rw [hc]
  | some c =>
    right
    have hlt := (List.getElem?_eq_some_iff.mp hc).1
    by_cases hne : c = '%'
    · subst hne
      by_cases hnext : p[s.i + 1]? = some '%'
      · exact ⟨_, scanRound_percent hc hnext, .literal '%' rfl rfl, Nat.lt_succ_self s.i, hlt⟩
      · obtain ⟨s', hround, hi, str, fmt, h | h⟩ := exists_scanRound_item hc hnext
        · exact ⟨s', hround, .item str fmt h.1 h.2, hi, hlt⟩
        · exact ⟨s', hround, .error str fmt h.1 h.2, hi, hlt⟩
    · exact ⟨_, scanRound_literal hc hne, .literal c rfl rfl, Nat.lt_succ_self s.i, hlt⟩

theorem scanRound_measure (s s' : Scan) (h : scanRound p s = some (.next s')) :
    p.length - s'.i < p.length - s.i := by
  rcases scanRound_cases p s with hexit | ⟨s₁, hnext, -, hi, hlt⟩
  · rw [hexit] at h
    cases h
  · rw [hnext] at h
    cases h
    omega

theorem scanRound_ne_none (s : Scan) : scanRound p s ≠ none := by
  rcases scanRound_cases p s with h | ⟨s', h, -⟩ <;> rw [h] <;> exact Option.some_ne_none _

/-- The variables before the first round. -/
def Scan.start : Scan :=
  { i := 0, vec := [], nstr := [], error := false }

/-- The outer loop comes to an end. -/
theorem exists_scan (p : List Char) : ∃ s, scan p = some s := by
  have hfuel : p.length - Scan.start.i < p.length + 1 := by omega
  obtain ⟨s, hs⟩ := exists_run scanRound_measure scanRound_ne_none hfuel
  exact ⟨_, congrArg (Option.map _) hs⟩

theorem scan_eq_some (h : Returns (scanRound p) Scan.start r) :
    scan p = some (r.flush " ".toList) := by
  have hfuel : p.length - Scan.start.i < p.length + 1 := by omega
  exact congrArg (Option.map _) (run_eq_some scanRound_measure h hfuel)

end Scan

end LogFormatter
end Civan
