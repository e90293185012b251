import Civan.Log.Formatter

/-!
# LogFormatter: what a pattern stands for

A pattern is a list of literal characters, `%%`, and items.  A pattern without `%%` is
read as it is written.  For `%%` the scan keeps one `%` but moves on by one character
only, so that the second `%` is scanned again: it starts an item, or is text once more
if another `%` follows.  What `init` finds then differs from what is written, whatever
stands around the `%%`.
-/

namespace Civan
namespace LogFormatter

open Loop

section Grammar

/-- The parts of a pattern. -/
inductive Token where
  | lit (c : Char)
  | percent
  | item (name : List Char)
  | itemFmt (name fmt : List Char)
deriving DecidableEq, Repr

namespace Token

/-- How a part is written. -/
def text : Token → List Char
  | lit c => [c]
  | percent => ['%', '%']
  | item name => '%' :: name
  | itemFmt name fmt => '%' :: (name ++ '{' :: (fmt ++ ['}']))

/-- What a part stands for. -/
def pieces : Token → List Piece
  | lit c => [.char c]
  | percent => [.char '%']
  | item name => [.item name []]
  | itemFmt name fmt => [.item name fmt]

def Ok : Token → Prop
  | lit c => c ≠ '%'
  | percent => True
  | item name => name ≠ [] ∧ ∀ c ∈ name, isalpha c = true
  | itemFmt name fmt => (name ≠ [] ∧ ∀ c ∈ name, isalpha c = true) ∧ '}' ∉ fmt

/-- A name does not run on into literal text. -/
def MayPrecede : Token → List Token → Prop
  | item _, lit c :: _ => isalpha c = false ∧ c ≠ '{' ∧ c ≠ '}'
  | _, _ => True

end Token

def WellFormed : List Token → Prop
  | [] => True
  | t :: ts => t.Ok ∧ t.MayPrecede ts ∧ WellFormed ts

def patternText (ts : List Token) : List Char :=
  ts.flatMap Token.text

def patternPieces (ts : List Token) : List Piece :=
  ts.flatMap Token.pieces

variable {p front name : List Char} {t : Token} {ts rest : List Token} {s r : Scan}

theorem endsName_patternText (h : (Token.item name).MayPrecede ts) :
    EndsName (patternText ts) := by
  intro c hc
  cases ts with
  | nil => cases hc
  | cons t ts =>
    cases t with
    | lit d =>
      cases hc
      exact h
    | percent =>
      cases hc
      decide
    | item name =>
      cases hc
      decide
    | itemFmt name fmt =>
      cases hc
      decide

/-- A name keeps `%` from `%`. -/
theorem next_ne_percent {rest : List Char} (hp : p = front ++ '%' :: (name ++ rest))
    (hne : name ≠ []) (hname : ∀ c ∈ name, isalpha c = true) :
    p[front.length + 1]? ≠ some '%' := by
  cases name with
  | nil => exact absurd rfl hne
  | cons c name =>
    have hp' : p = (front ++ ['%']) ++ c :: (name ++ rest) := by
      rw [hp]
      simp
    rw [getElem?_of_eq_append hp' (by simp)]
    rintro ⟨⟩
    exact absurd (hname '%' List.mem_cons_self) (by decide)

theorem exists_scanRound_token (hp : p = front ++ (t.text ++ patternText ts))
    (hi : s.i = front.length) (hok : t.Ok) (hts : t.MayPrecede ts) (hpercent : t ≠ .percent) :
    ∃ s', scanRound p s = some (.next s') ∧ s'.i = (front ++ t.text).length ∧
      s'.pieces = s.pieces ++ t.pieces ∧ s'.error = s.error := by
  cases t with
  | lit c =>
    have hc : p[s.i]? = some c := getElem?_of_eq_append hp hi
    refine ⟨_, scanRound_literal hc hok, ?_, ?_, rfl⟩
    · simp [Scan.append, Token.text, hi]
    · simp [Scan.append, Scan.pieces, Scan.stored, Token.pieces]
  | percent => exact absurd rfl hpercent
  | item name =>
    have hc : p[s.i]? = some '%' := getElem?_of_eq_append hp hi
    have hnext := next_ne_percent hp hok.1 hok.2
    obtain ⟨item, hitem, hstatus, hn, hfmt⟩ :=
      scanItem_name hp hok.2 (endsName_patternText hts)
    rw [← hi] at hnext hitem hn
    have hstr : substr p (s.i + 1) (item.n - s.i - 1) = name := by
      have hp' : p = (front ++ ['%']) ++ (name ++ patternText ts) := by
        rw [hp]
        simp [Token.text]
      exact substr_of_eq_append hp' (by simp [hi]) (by omega)
    refine ⟨_, scanRound_item hc hnext hitem, ?_⟩
    unfold Scan.takeItem
    rw [hstatus]
    dsimp only
    rw [hstr, hfmt, hn]
    refine ⟨?_, s.flush_push_pieces name [] _, s.flush_error []⟩
    change s.i + 1 + name.length - 1 + 1 = _
    simp only [Token.text, List.length_append, List.length_cons]
    omega
  | itemFmt name fmt =>
    have hp' : p = front ++ '%' :: (name ++ '{' :: (fmt ++ '}' :: patternText ts)) := by
      rw [hp]
      simp [Token.text]
    have hc : p[s.i]? = some '%' := getElem?_of_eq_append hp hi
    have hnext := next_ne_percent hp' hok.1.1 hok.1.2
    obtain ⟨item, hitem, hstatus, hn, hstr, hfmt⟩ := scanItem_closed hp' hok.1.2 hok.2
    rw [← hi] at hnext hitem hn
    refine ⟨_, scanRound_item hc hnext hitem, ?_⟩
    unfold Scan.takeItem
    rw [hstatus]
    dsimp only
    rw [hstr, hfmt, hn]
    refine ⟨?_, s.flush_push_pieces name fmt _, s.flush_error []⟩
    change s.i + 1 + name.length + 1 + fmt.length + 1 = _
    simp only [Token.text, List.length_append, List.length_cons, List.length_nil]
    omega

theorem exists_rounds (hpercent : .percent ∉ ts) (hwf : WellFormed (ts ++ rest)) :
    ∀ {front : List Char} {s : Scan}, p = front ++ patternText (ts ++ rest) →
      s.i = front.length →
      ∃ s', (∀ r, Returns (scanRound p) s r ↔ Returns (scanRound p) s' r) ∧
        s'.i = (front ++ patternText ts).length ∧
        s'.pieces = s.pieces ++ patternPieces ts ∧ s'.error = s.error := by
  induction ts with
  | nil =>
    intro front s _ hi
    exact ⟨s, fun _ => Iff.rfl, by simp [patternText, hi], by simp [patternPieces], rfl⟩
  | cons t ts ih =>
    intro front s hp hi
    obtain ⟨hok, hprecede, hwf⟩ := hwf
    rw [List.mem_cons, not_or] at hpercent
    have hp' : p = front ++ (t.text ++ patternText (ts ++ rest)) := hp
    obtain ⟨s₁, hround, hi₁, hpieces₁, herror₁⟩ :=
      exists_scanRound_token hp' hi hok hprecede (Ne.symm hpercent.1)
    rw [← List.append_assoc] at hp'
    obtain ⟨s₂, hreturns, hi₂, hpieces₂, herror₂⟩ := ih hpercent.2 hwf hp' hi₁
    refine ⟨s₂, ?_, ?_, ?_, herror₂.trans herror₁⟩
    · intro r
      rw [← hreturns r]
      exact ⟨fun h => h.of_next hround, fun h => .next hround h⟩
    · rw [hi₂, List.append_assoc]
      rfl
    · rw [hpieces₂, hpieces₁, List.append_assoc]
      rfl

theorem scan_of_not_percent (hpercent : .percent ∉ ts) (hwf : WellFormed ts) :
    ∃ s, scan (patternText ts) = some s ∧ s.stored = patternPieces ts ∧ s.error = false := by
  have hwf' : WellFormed (ts ++ []) := by rwa [List.append_nil]
  have hp : patternText ts = [] ++ patternText (ts ++ []) := by
    rw [List.append_nil, List.nil_append]
  obtain ⟨s, hreturns, hi, hpieces, herror⟩ :=
    exists_rounds hpercent hwf' hp (s := Scan.start) rfl
  have hexit : scanRound (patternText ts) s = some (.exit s) := by
    unfold scanRound
    rw [hi, List.nil_append, List.getElem?_eq_none_iff.mpr le_rfl]
  refine ⟨_, scan_eq_some ((hreturns s).mpr (.exit hexit)), ?_, ?_⟩
  · rw [Scan.flush_stored, hpieces]
    rfl
  · rw [Scan.flush_error, herror]
    rfl

end Grammar

section Percent

variable {p : List Char} {s s' r : Scan} {out : List Piece}

/-- What may still come: the pending text goes first unless an item that is not closed
comes before it. -/
inductive Continues (s : Scan) (out : List Piece) : Prop
  | text (rest : List Piece) (hout : out = s.pieces ++ rest) :
      Continues s out
  | item (name fmt : List Char) (rest : List Piece)
      (hout : out = s.stored ++ .item name fmt :: rest) :
      Continues s out

theorem Continues.of_stored {l : List Piece} {name fmt : List Char} (h : Continues s' out)
    (hstored : s'.stored = l ++ [.item name fmt]) :
    ∃ rest, out = l ++ .item name fmt :: rest := by
  cases h with
  | text rest hout =>
    rw [Scan.pieces, hstored] at hout
    exact ⟨s'.nstr.map .char ++ rest, by simpa using hout⟩
  | item name' fmt' rest hout =>
    rw [hstored] at hout
    exact ⟨.item name' fmt' :: rest, by simpa using hout⟩

theorem Grows.continues (hgrows : Grows s s') (h : Continues s' out) : Continues s out := by
  cases hgrows with
  | literal c hstored hnstr =>
    cases h with
    | text rest hout =>
      rw [Scan.pieces, hstored, hnstr] at hout
      exact .text (.char c :: rest) (by simpa [Scan.pieces] using hout)
    | item name fmt rest hout =>
      rw [hstored] at hout
      exact .item name fmt rest hout
  | item str fmt hstored hnstr =>
    obtain ⟨rest, hout⟩ := h.of_stored hstored
    exact .text _ hout
  | error str fmt hstored hnstr =>
    obtain ⟨rest, hout⟩ := h.of_stored hstored
    exact .item str fmt rest hout

theorem continues_of_returns (h : Returns (scanRound p) s r) : Continues s r.pieces := by
  induction h with
  | @exit s r hround =>
    rcases scanRound_cases p s with hexit | ⟨s', hnext, -⟩
    · rw [hexit] at hround
      cases hround
      exact .text [] (List.append_nil _).symm
    · rw [hnext] at hround
      cases hround
  | @next s s₁ r hround _ ih =>
    rcases scanRound_cases p s with hexit | ⟨s', hnext, hgrows, -⟩
    · rw [hexit] at hround
      cases hround
    · rw [hnext] at hround
      cases hround
      exact hgrows.continues ih

variable {front a : List Char} {k m : ℕ} {ts : List Token} {exp : List Piece}

/-- The text that is expected, with `k` of the `%` behind it. -/
def expected (s : Scan) (a : List Char) (k : ℕ) (exp : List Piece) : List Piece :=
  s.stored ++ ((a ++ List.replicate k '%').map .char ++ exp)

/-- No item comes before text that is expected. -/
theorem item_ne_expected (hk : 1 ≤ k) (name fmt : List Char) (rest : List Piece) :
    s.stored ++ .item name fmt :: rest ≠ expected s a k exp := by
  intro h
  have htail := List.append_cancel_left h
  cases a with
  | nil =>
    obtain ⟨k, rfl⟩ := Nat.exists_eq_succ_of_ne_zero (by omega : k ≠ 0)
    cases htail
  | cons c a => cases htail

/-- The scan has more of the `%` than are expected. -/
theorem pieces_ne_expected {x : Piece} {rest : List Piece}
    (hnstr : s.nstr = a ++ List.replicate m '%') (hkm : k ≤ m)
    (hx : ∀ y ∈ exp.head?, y ≠ .char '%' ∧ y ≠ x) :
    s.pieces ++ x :: rest ≠ expected s a k exp := by
  intro h
  obtain ⟨d, rfl⟩ := Nat.exists_eq_add_of_le hkm
  rw [Scan.pieces, hnstr, expected, List.replicate_add] at h
  simp only [List.map_append, List.append_assoc, List.append_cancel_left_eq] at h
  cases d with
  | zero =>
    have hhead := hx x (by rw [← h]; rfl)
    exact hhead.2 rfl
  | succ d =>
    have hhead := hx (.char '%') (by rw [← h]; rfl)
    exact hhead.1 rfl

/-- A `%` that no other follows starts an item. -/
theorem pieces_ne_of_item {text : List Char} (hp : p = front ++ '%' :: text)
    (htext : text.head? ≠ some '%') (hi : s.i = front.length)
    (hnstr : s.nstr = a ++ List.replicate m '%') (hk : 1 ≤ k) (hkm : k ≤ m)
    (hexp : ∀ y ∈ exp.head?, ∃ c, c ≠ '%' ∧ y = .char c) (hreturns : Returns (scanRound p) s r) :
    r.pieces ≠ expected s a k exp := by
  have hc : p[s.i]? = some '%' := getElem?_of_eq_append hp hi
  have hnext : p[s.i + 1]? ≠ some '%' := by
    have hhead : p[s.i + 1]? = text.head? := by
      rw [hp, hi, List.head?_eq_getElem?, List.getElem?_append_right (Nat.le_add_right _ 1),
        Nat.add_sub_cancel_left, List.getElem?_cons_succ]
    rwa [hhead]
  obtain ⟨s', hround, -, name, fmt, h | h⟩ := exists_scanRound_item hc hnext
  · obtain ⟨rest, hout⟩ :=
      (continues_of_returns (hreturns.of_next hround)).of_stored h.1
    rw [hout]
    apply pieces_ne_expected hnstr hkm
    intro y hy
    obtain ⟨c, hc, rfl⟩ := hexp y hy
    exact ⟨fun h => hc (Piece.char.inj h), fun h => by cases h⟩
  · obtain ⟨rest, hout⟩ :=
      (continues_of_returns (hreturns.of_next hround)).of_stored h.1
    rw [hout]
    exact item_ne_expected hk name fmt rest

theorem scanRound_double {text : List Char} (hp : p = front ++ '%' :: '%' :: text)
    (hi : s.i = front.length) :
    scanRound p s = some (.next (s.append '%')) := by
  have hp' : p = (front ++ ['%']) ++ '%' :: text := by
    rw [hp]
    simp
  exact scanRound_percent (getElem?_of_eq_append hp hi) (getElem?_of_eq_append hp' (by simp [hi]))

/-- Two rounds at three `%`. -/
theorem returns_after_percents {text : List Char} (hreturns : Returns (scanRound p) s r)
    (hp : p = front ++ '%' :: '%' :: '%' :: text) (hi : s.i = front.length) :
    p = (front ++ ['%', '%']) ++ '%' :: text ∧
      ((s.append '%').append '%').i = (front ++ ['%', '%']).length ∧
      Returns (scanRound p) ((s.append '%').append '%') r := by
  have hp₁ : p = (front ++ ['%']) ++ '%' :: '%' :: text := by
    rw [hp]
    simp
  have hi₁ : (s.append '%').i = (front ++ ['%']).length := by simp [Scan.append, hi]
  have hreturns₁ := hreturns.of_next (scanRound_double hp hi)
  refine ⟨by rw [hp₁]; simp, by simp [Scan.append, hi], ?_⟩
  exact hreturns₁.of_next (scanRound_double hp₁ hi₁)

/-- A `%` that another follows is text. -/
theorem pieces_ne_of_text {text : List Char} (hp : p = front ++ '%' :: '%' :: text)
    (hi : s.i = front.length) (hnstr : s.nstr = a ++ List.replicate m '%') (hk : 1 ≤ k)
    (hkm : k ≤ m) (hexp : ∀ y ∈ exp.head?, y ≠ .char '%') (hreturns : Returns (scanRound p) s r) :
    r.pieces ≠ expected s a k exp := by
  have hround := scanRound_double hp hi
  cases continues_of_returns (hreturns.of_next hround) with
  | text rest hout =>
    have happend : (s.append '%').pieces ++ rest = s.pieces ++ .char '%' :: rest := by
      simp [Scan.append, Scan.pieces, Scan.stored]
    rw [hout, happend]
    exact pieces_ne_expected hnstr hkm (fun y hy => ⟨hexp y hy, hexp y hy⟩)
  | item name fmt rest hout =>
    rw [hout]
    exact item_ne_expected hk name fmt rest

/-- One `%` too many stands in front of the rest. -/
theorem pieces_ne_of_percent :
    ∀ {ts : List Token} {s : Scan} {front : List Char} {k m : ℕ}, WellFormed ts →
      p = front ++ '%' :: patternText ts → s.i = front.length →
      s.nstr = a ++ List.replicate m '%' → 1 ≤ k → k ≤ m →
      Returns (scanRound p) s r → r.pieces ≠ expected s a k (patternPieces ts) := by
  intro ts
  induction ts with
  | nil =>
    intro s front k m _ hp hi hnstr hk hkm hreturns
    exact pieces_ne_of_item hp (by simp [patternText]) hi hnstr hk hkm
      (by simp [patternPieces]) hreturns
  | cons t ts ih =>
    intro s front k m hwf hp hi hnstr hk hkm hreturns
    cases t with
    | lit c =>
      have hc : c ≠ '%' := hwf.1
      apply pieces_ne_of_item hp (by simpa [patternText, Token.text] using hc) hi hnstr hk
        hkm _ hreturns
      intro y hy
      cases hy
      exact ⟨c, hc, rfl⟩
    | percent =>
      have hp₃ : p = front ++ '%' :: '%' :: '%' :: patternText ts := hp
      obtain ⟨hp₂, hi₂, hreturns₂⟩ := returns_after_percents hreturns hp₃ hi
      have hnstr₂ :
          ((s.append '%').append '%').nstr = a ++ List.replicate (m + 2) '%' := by
        rw [List.replicate_succ', List.replicate_succ']
        simp [Scan.append, hnstr]
      have hne :=
        ih hwf.2.2 hp₂ hi₂ hnstr₂ (Nat.le_add_left 1 k) (by omega) hreturns₂
      have hexpected :
          expected ((s.append '%').append '%') a (k + 1) (patternPieces ts) =
            expected s a k (patternPieces (.percent :: ts)) := by
        rw [expected, expected, List.replicate_succ']
        simp [Scan.append, Scan.stored, patternPieces, Token.pieces]
      rwa [hexpected] at hne
    | item name =>
      apply pieces_ne_of_text hp hi hnstr hk hkm _ hreturns
      rintro y hy rfl
      cases hy
    | itemFmt name fmt =>
      apply pieces_ne_of_text hp hi hnstr hk hkm _ hreturns
      rintro y hy rfl
      cases hy

theorem wellFormed_append {ts ts' : List Token} (h : WellFormed (ts ++ ts')) :
    WellFormed ts' := by
  induction ts with
  | nil => exact h
  | cons t ts ih => exact ih h.2.2

theorem scan_of_percent (hpercent : .percent ∈ ts) (hwf : WellFormed ts)
    (h : scan (patternText ts) = some s) :
    s.stored ≠ patternPieces ts := by
  obtain ⟨ts₁, ts₂, rfl, hfirst⟩ := List.eq_append_cons_of_mem hpercent
  obtain ⟨r, hr, rfl⟩ := Option.map_eq_some_iff.mp h
  have hreturns : Returns (scanRound _) Scan.start r := returns_of_run hr
  obtain ⟨s₁, hiff, hi₁, hpieces₁, -⟩ :=
    exists_rounds hfirst hwf (List.nil_append _).symm (s := Scan.start) rfl
  have hreturns₁ := (hiff r).mp hreturns
  rw [List.nil_append] at hi₁
  -- the first `%%`
  have hp : patternText (ts₁ ++ .percent :: ts₂) =
      patternText ts₁ ++ '%' :: '%' :: patternText ts₂ := by
    simp [patternText, Token.text]
  have hround := scanRound_double hp hi₁
  have hp₂ : patternText (ts₁ ++ .percent :: ts₂) =
      (patternText ts₁ ++ ['%']) ++ '%' :: patternText ts₂ := by
    rw [hp]
    simp
  have hi₂ : (s₁.append '%').i = (patternText ts₁ ++ ['%']).length := by simp [Scan.append, hi₁]
  have hne :=
    pieces_ne_of_percent (k := 1) (m := 1) (wellFormed_append hwf).2.2 hp₂ hi₂ rfl le_rfl le_rfl
      (hreturns₁.of_next hround)
  have hexpected : expected (s₁.append '%') s₁.nstr 1 (patternPieces ts₂) =
      s₁.pieces ++ .char '%' :: patternPieces ts₂ := by
    simp [expected, Scan.append, Scan.pieces, Scan.stored]
  rw [hexpected, hpieces₁] at hne
  rw [Scan.flush_stored]
  simpa [patternPieces, Token.pieces, Scan.pieces, Scan.stored, Scan.start] using hne

end Percent

section Items

/-- What a log line is made of: text, and what an item puts there. -/
inductive Output where
  | char (c : Char)
  | item (cls : ItemClass) (fmt : List Char)
deriving DecidableEq, Repr

def FormatItem.outputs : FormatItem → List Output
  | string text => text.map .char
  | item cls fmt => [.item cls fmt]

def Piece.outputs : Piece → List Output
  | char c => [.char c]
  | item name fmt =>
    match formatItems.lookup name with
    | none => (errorFormat name).map .char
    | some cls => [.item cls fmt]

def Piece.unknown : Piece → Bool
  | char _ => false
  | item name _ => (formatItems.lookup name).isNone

def Token.unknown : Token → Bool
  | lit _ => false
  | percent => false
  | item name => (formatItems.lookup name).isNone
  | itemFmt name _ => (formatItems.lookup name).isNone

variable {ts : List Token}

theorem outputs_formatItem (e : Entry) :
    e.formatItem.outputs = e.pieces.flatMap Piece.outputs := by
  unfold Entry.formatItem Entry.pieces
  cases e.isItem with
  | false =>
    have hchar : ∀ l : List Char,
        (l.map Piece.char).flatMap Piece.outputs = l.map Output.char := by
      intro l
      induction l with
      | nil => rfl
      | cons c l ih => exact congrArg (Output.char c :: ·) ih
    exact (hchar e.str).symm
  | true =>
    cases hlookup : formatItems.lookup e.str with
    | none => simp [FormatItem.outputs, Piece.outputs, hlookup]
    | some cls => simp [FormatItem.outputs, Piece.outputs, hlookup]

theorem unknown_entry (e : Entry) : e.unknown = e.pieces.any Piece.unknown := by
  unfold Entry.unknown Entry.pieces
  cases e.isItem with
  | false => simp [Piece.unknown]
  | true => simp [Piece.unknown]

theorem unknown_token (t : Token) : t.pieces.any Piece.unknown = t.unknown := by
  cases t with
  | lit c => rfl
  | percent => rfl
  | item name => exact Bool.or_false _
  | itemFmt name fmt => exact Bool.or_false _

/-- The piece a character or a known item comes from. -/
def Output.piece : Output → Piece
  | char c => .char c
  | item cls fmt => .item (((formatItems.find? (·.2 = cls)).map Prod.fst).getD []) fmt

theorem map_piece_outputs {q : Piece} (hknown : q.unknown = false) :
    q.outputs.map Output.piece = [q] := by
  cases q with
  | char c => rfl
  | item name fmt =>
    cases hlookup : formatItems.lookup name with
    | none => simp [Piece.unknown, hlookup] at hknown
    | some cls =>
      obtain ⟨l₁, l₂, heq, -⟩ := List.lookup_eq_some_iff.mp hlookup
      have hmem : (name, cls) ∈ formatItems := by simp [heq]
      have hname : ∀ x ∈ formatItems, Output.piece (.item x.2 fmt) = .item x.1 fmt := by
        simp only [Output.piece, Piece.item.injEq, and_true]
        decide
      rw [Piece.outputs, hlookup]
      exact congrArg (fun x => [x]) (hname _ hmem)

/-- Known items and characters can be told apart in the output. -/
theorem map_piece_flatMap {l : List Piece} (hknown : l.any Piece.unknown = false) :
    (l.flatMap Piece.outputs).map Output.piece = l := by
  rw [List.any_eq_false] at hknown
  rw [List.map_flatMap, List.flatMap_congr fun q hq =>
    map_piece_outputs (Bool.eq_false_of_not_eq_true (hknown q hq))]
  exact List.flatMap_singleton' l

/-- The items, in terms of what the scan stored. -/
theorem init_of_scan {p : List Char} {s : Scan} (h : scan p = some s) :
    ∃ items, init p = some (items, s.error || s.stored.any Piece.unknown) ∧
      items.flatMap FormatItem.outputs = s.stored.flatMap Piece.outputs := by
  refine ⟨s.vec.map Entry.formatItem, ?_, ?_⟩
  · have hunknown : Entry.unknown = fun e => e.pieces.any Piece.unknown :=
      funext unknown_entry
    rw [init, h, Option.map_some, Scan.stored, List.any_flatMap, hunknown]
  · rw [Scan.stored, List.flatMap_map, List.flatMap_assoc]
    exact List.flatMap_congr fun e _ => outputs_formatItem e

theorem any_unknown_patternPieces (ts : List Token) :
    (patternPieces ts).any Piece.unknown = ts.any Token.unknown := by
  rw [patternPieces, List.any_flatMap]
  exact congrArg (ts.any ·) (funext unknown_token)

/-- `init` returns for every pattern.  It splits a pattern of the grammar as it is
written if and only if there is no `%%` in it; then the items stand for the pattern, and
`isError` tells whether one of them is unknown.  Where all of them are known, a `%%`
shows in the items or in `isError`. -/
theorem init_iff (p : List Char) :
    (∃ items error, init p = some (items, error)) ∧
      ∀ ts, WellFormed ts → p = patternText ts →
        (∃ s, scan p = some s ∧ (s.stored = patternPieces ts ↔ .percent ∉ ts)) ∧
        (.percent ∉ ts → ∃ items error, init p = some (items, error) ∧
          items.flatMap FormatItem.outputs = (patternPieces ts).flatMap Piece.outputs ∧
          (error = true ↔ ∃ t ∈ ts, t.unknown = true)) ∧
        ((∀ t ∈ ts, t.unknown = false) → ∃ items error, init p = some (items, error) ∧
          (items.flatMap FormatItem.outputs = (patternPieces ts).flatMap Piece.outputs ∧
            error = false ↔ .percent ∉ ts)) := by
  obtain ⟨s, hs⟩ := exists_scan p
  obtain ⟨items, hinit, houtputs⟩ := init_of_scan hs
  refine ⟨⟨items, _, hinit⟩, ?_⟩
  rintro ts hwf rfl
  have hright : .percent ∉ ts → s.stored = patternPieces ts ∧ s.error = false := by
    intro hpercent
    obtain ⟨s', hs', hstored⟩ := scan_of_not_percent hpercent hwf
    rw [hs] at hs'
    cases hs'
    exact hstored
  refine ⟨⟨s, hs, ?_, fun hpercent => (hright hpercent).1⟩, ?_, ?_⟩
  · intro hstored hpercent
    exact scan_of_percent hpercent hwf hs hstored
  · intro hpercent
    obtain ⟨hstored, herror⟩ := hright hpercent
    rw [hstored] at hinit houtputs
    refine ⟨items, _, hinit, houtputs, ?_⟩
    rw [herror, Bool.false_or, any_unknown_patternPieces, List.any_eq_true]
  · intro hknown
    have htokens : (patternPieces ts).any Piece.unknown = false := by
      rw [any_unknown_patternPieces, List.any_eq_false]
      intro t ht
      simp [hknown t ht]
    refine ⟨items, _, hinit, ?_, ?_⟩
    · rintro ⟨hsame, herror⟩ hpercent
      have hstored := map_piece_flatMap (Bool.or_eq_false_iff.mp herror).2
      rw [← houtputs, hsame, map_piece_flatMap htokens] at hstored
      exact scan_of_percent hpercent hwf hs hstored.symm
    · intro hpercent
      obtain ⟨hstored, herror⟩ := hright hpercent
      rw [houtputs, herror, hstored, htokens]
      exact ⟨rfl, rfl⟩

/-- A date with a format, and a line break. -/
def dateLine : List Token :=
  [.itemFmt ['d'] ['%', 'Y'], .item ['n']]

theorem init_dateLine :
    WellFormed dateLine ∧ .percent ∉ dateLine ∧
      ∃ items error, init (patternText dateLine) = some (items, error) ∧
        items.flatMap FormatItem.outputs = [.item .dateTime ['%', 'Y'], .item .newLine []] ∧
        (error = true ↔ ∃ t ∈ dateLine, t.unknown = true) := by
  have hname : ∀ {c : Char}, isalpha c = true → [c] ≠ [] ∧ ∀ d ∈ [c], isalpha d = true := by
    intro c hc
    refine ⟨List.cons_ne_nil c [], ?_⟩
    intro d hd
    rw [List.mem_singleton.mp hd]
    exact hc
  have hwf : WellFormed dateLine :=
    ⟨⟨hname rfl, by decide⟩, trivial, hname rfl, trivial, trivial⟩
  have hpercent : .percent ∉ dateLine := by decide
  exact ⟨hwf, hpercent, ((init_iff (patternText dateLine)).2 dateLine hwf rfl).2.1 hpercent⟩

/-- `%%d` gives a date, and `%%` alone an error. -/
theorem init_percent_wrong :
    WellFormed [.percent, .lit 'd'] ∧
      init "%%d".toList = some ([.string ['%'], .item .dateTime []], false) ∧
      init "%%".toList = some ([.string ['%'], .string "<<error_format %>>".toList], true) := by
  refine ⟨⟨trivial, trivial, ?_, trivial, trivial⟩, ?_, ?_⟩
  · change 'd' ≠ '%'
    decide
  · decide
  · decide

end Items

end LogFormatter
end Civan
