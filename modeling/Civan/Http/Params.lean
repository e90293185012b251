import Civan.Http.MapType
import Civan.Lib.Split
import Civan.Util.StringUtil

/-!
# Parameters and cookies of a request

`PARSE_PARAM` looks for the next `=` first and for the delimiter only behind it.
Compared with cutting the string at the delimiter, a piece without `=` is not
skipped: it becomes the front of the next key, delimiter included.  Where no such
piece stands in front of a piece with `=`, the two agree.

The parameters, the cookies and the flag that says which of them are parsed are
members of `HttpRequest` that only these functions use.
-/

namespace Civan
namespace Http

open MachineInt Split StringUtil

section Model

/-- `HttpRequest` with the members that are filled on demand. -/
structure ParamRequest where
  request : HttpRequest
  parserParamFlag : ℕ
  params : MapType
  cookies : MapType
deriving DecidableEq, Repr

/-- Before anything is parsed. -/
def ParamRequest.new (r : HttpRequest) : ParamRequest where
  request := r
  parserParamFlag := 0
  params := []
  cookies := []

/-- `std::string::npos`. -/
def npos : ℕ := 2 ^ 64 - 1

/-- `str.find(c, pos)`. -/
def strFind (str : List UInt8) (c : UInt8) (pos : ℕ) : ℕ :=
  match (str.drop pos).findIdx? (· = c) with
  | some k => pos + k
  | none => npos

/-- The loop of `PARSE_PARAM(str, m, flag, trim)`; `none` when the fuel is used up. -/
def parseParamLoop (str : List UInt8) (flag : UInt8) (trim : List UInt8 → List UInt8) :
    ℕ → ℕ → MapType → Option MapType
  | 0, _, _ => none
  | fuel + 1, last, m =>
    let key := strFind str 61 last
    if key = npos then
      some m
    else
      let pos := strFind str flag key
      let m' :=
        MapType.insert (trim (substr str last (key - last)))
          (urlDecode (substr str (key + 1) (sizeSub (sizeSub pos key) 1)) true) m
      if pos = npos then some m' else parseParamLoop str flag trim fuel (pos + 1) m'

def parseParam (str : List UInt8) (flag : UInt8) (trim : List UInt8 → List UInt8)
    (m : MapType) : Option MapType :=
  parseParamLoop str flag trim (str.length + 1) 0 m

/-- `Trim` with its default delimiters. -/
def trimKey (key : List UInt8) : List UInt8 :=
  StringUtil.trim key whitespace

def initQueryParam (r : ParamRequest) : Option ParamRequest :=
  if r.parserParamFlag &&& 0x1 ≠ 0 then
    some r
  else
    (parseParam r.request.query 38 id r.params).map fun m =>
      { r with params := m, parserParamFlag := r.parserParamFlag ||| 0x1 }

/-- `strcasestr(haystack, needle) != nullptr`. -/
def strcasestr (haystack needle : List UInt8) : Bool :=
  decide (foldCase needle <:+: foldCase haystack)

/-- The content type says that the body holds parameters. -/
def HttpRequest.hasFormType (r : HttpRequest) : Bool :=
  strcasestr (r.getHeader (bytesOf "content-type") [])
    (bytesOf "application/x-www-form-urlencoded")

def initBodyParam (r : ParamRequest) : Option ParamRequest :=
  if r.parserParamFlag &&& 0x2 ≠ 0 then
    some r
  else if r.request.hasFormType = false then
    some { r with parserParamFlag := r.parserParamFlag ||| 0x2 }
  else
    (parseParam r.request.body 38 id r.params).map fun m =>
      { r with params := m, parserParamFlag := r.parserParamFlag ||| 0x2 }

def initCookies (r : ParamRequest) : Option ParamRequest :=
  if r.parserParamFlag &&& 0x4 ≠ 0 then
    some r
  else
    let cookie := r.request.getHeader (bytesOf "cookie") []
    if cookie = [] then
      some { r with parserParamFlag := r.parserParamFlag ||| 0x4 }
    else
      (parseParam cookie 59 trimKey r.cookies).map fun m =>
        { r with cookies := m, parserParamFlag := r.parserParamFlag ||| 0x4 }

/-- `getParam(key, def)`: the value, and the request with its parameters parsed. -/
def getParam (key dflt : List UInt8) (r : ParamRequest) : Option (List UInt8 × ParamRequest) :=
  match initQueryParam r with
  | none => none
  | some r₁ =>
    match initBodyParam r₁ with
    | none => none
    | some r₂ => some ((MapType.find key r₂.params).getD dflt, r₂)

end Model

section Pieces

/-- The text before the first `=`. -/
def pieceKey (piece : List UInt8) : List UInt8 :=
  piece.takeWhile (· ≠ 61)

/-- The text behind the first `=`. -/
def pieceValue (piece : List UInt8) : List UInt8 :=
  (piece.dropWhile (· ≠ 61)).drop 1

/-- The plain reading of the pieces: those without `=` are left out. -/
def plainPairs (pieces : List (List UInt8)) : List (List UInt8 × List UInt8) :=
  (pieces.filter (61 ∈ ·)).map fun p => (pieceKey p, pieceValue p)

/-- A pair as it goes into the map. -/
def storedPair (trim : List UInt8 → List UInt8) (e : List UInt8 × List UInt8) :
    List UInt8 × List UInt8 :=
  (trim e.1, urlDecode e.2 true)

/-- The map that splitting at the delimiter gives. -/
def plainMap (flag : UInt8) (trim : List UInt8 → List UInt8) (str : List UInt8) : MapType :=
  MapType.insertAll ((plainPairs (str.splitOn flag)).map (storedPair trim)) []

/-- What the loop makes of the pieces: those without `=` stay in front of the next key. -/
def scannedPairs (flag : UInt8) :
    List UInt8 → List (List UInt8) → List (List UInt8 × List UInt8)
  | _, [] => []
  | front, p :: ps =>
    if 61 ∈ p then
      (front ++ pieceKey p, pieceValue p) :: scannedPairs flag [] ps
    else
      scannedPairs flag (front ++ p ++ [flag]) ps

/-- No piece without `=` stands in front of one with it. -/
def BareLast (pieces : List (List UInt8)) : Prop :=
  pieces.Pairwise fun p q => 61 ∉ p → 61 ∉ q

end Pieces

section Scanning

variable {flag : UInt8} {str k t v front : List UInt8} {pieces : List (List UInt8)}

theorem pieceKey_append (hk : 61 ∉ k) (v : List UInt8) : pieceKey (k ++ 61 :: v) = k := by
  have hall : ∀ c ∈ k, decide (c ≠ 61) = true :=
    fun c hc => decide_eq_true (ne_of_mem_of_not_mem hc hk)
  rw [pieceKey, List.takeWhile_append_of_pos hall, List.takeWhile_cons_of_neg (by decide),
    List.append_nil]

theorem pieceValue_append (hk : 61 ∉ k) (v : List UInt8) : pieceValue (k ++ 61 :: v) = v := by
  have hall : ∀ c ∈ k, decide (c ≠ 61) = true :=
    fun c hc => decide_eq_true (ne_of_mem_of_not_mem hc hk)
  rw [pieceValue, List.dropWhile_append_of_pos hall, List.dropWhile_cons_of_neg (by decide),
    List.drop_one, List.tail_cons]

theorem scannedPairs_bare (hbare : ∀ p ∈ pieces, 61 ∉ p) (front : List UInt8) :
    scannedPairs flag front pieces = [] := by
  induction pieces generalizing front with
  | nil => rfl
  | cons p ps ih =>
    rw [scannedPairs, if_neg (hbare p List.mem_cons_self)]
    exact ih (fun q hq => hbare q (List.mem_cons_of_mem p hq)) _

/-- The next `=` and the first delimiter behind it end the next pair, however many
delimiters there are in front of the `=`. -/
theorem scannedPairs_next (hflag : flag ≠ 61) (ht : t.splitOn flag = v :: pieces)
    (front : List UInt8) (hk : 61 ∉ k) :
    scannedPairs flag front ((k ++ 61 :: t).splitOn flag) =
      (front ++ k, v) :: scannedPairs flag [] pieces := by
  revert front hk
  refine cut_induction flag (P := fun k => ∀ front, 61 ∉ k →
    scannedPairs flag front ((k ++ 61 :: t).splitOn flag) =
      (front ++ k, v) :: scannedPairs flag [] pieces) ?_ ?_ k
  · intro k hfront front hk
    have hflag' : flag ∉ k ++ [61] := by
      rw [List.mem_append, List.mem_singleton]
      exact not_or.mpr ⟨hfront, hflag⟩
    have hsplit := splitOn_append hflag' ht
    rw [List.append_assoc, List.singleton_append, List.append_assoc,
      List.singleton_append] at hsplit
    rw [hsplit, scannedPairs, if_pos (by simp), pieceKey_append hk, pieceValue_append hk]
  · intro a k ha ih front hk
    rw [List.mem_append, not_or, List.mem_cons, not_or] at hk
    rw [List.append_assoc, List.cons_append, splitOn_append_cons ha, scannedPairs,
      if_neg hk.1, ih _ hk.2.2]
    simp

theorem findIdx?_of_notMem {c : UInt8} {l : List UInt8} (hc : c ∉ l) :
    l.findIdx? (fun x => decide (x = c)) = none := by
  rw [List.findIdx?_eq_none_iff]
  exact fun x hx => decide_eq_false (ne_of_mem_of_not_mem hx hc)

theorem strFind_of_notMem {c : UInt8} {pos : ℕ} (hc : c ∉ str.drop pos) :
    strFind str c pos = npos := by
  rw [strFind, findIdx?_of_notMem hc]

theorem strFind_of_append {c : UInt8} {pos : ℕ} {a b : List UInt8}
    (hrest : str.drop pos = a ++ c :: b) (ha : c ∉ a) :
    strFind str c pos = pos + a.length := by
  have hsome : (a ++ c :: b).findIdx? (fun x => decide (x = c)) = some a.length := by
    rw [List.findIdx?_append, findIdx?_of_notMem ha, List.findIdx?_cons]
    simp
  rw [strFind, hrest, hsome]

section Rounds

variable {trim : List UInt8 → List UInt8} {fuel last : ℕ} {rest : List UInt8} {m : MapType}

theorem parseParamLoop_of_notMem (hrest : 61 ∉ str.drop last) :
    parseParamLoop str flag trim (fuel + 1) last m = some m := by
  rw [parseParamLoop]
  simp only [strFind_of_notMem hrest]
  rw [if_pos trivial]

theorem length_of_rest (hrest : str.drop last = k ++ 61 :: rest) :
    str.length = last + k.length + 1 + rest.length := by
  have hlength := congrArg List.length hrest
  rw [List.length_drop, List.length_append, List.length_cons] at hlength
  omega

theorem drop_key (hrest : str.drop last = k ++ 61 :: rest) :
    str.drop (last + k.length) = 61 :: rest := by
  rw [← List.drop_drop, hrest, List.drop_left]

theorem parseParamLoop_of_key (hlen : str.length < 2 ^ 64)
    (hrest : str.drop last = k ++ 61 :: rest) (hk : 61 ∉ k) :
    parseParamLoop str flag trim (fuel + 1) last m =
      let pos := strFind str flag (last + k.length)
      let m' := MapType.insert (trim k)
        (urlDecode (rest.take (sizeSub (sizeSub pos (last + k.length)) 1)) true) m
      if pos = npos then some m' else parseParamLoop str flag trim fuel (pos + 1) m' := by
  have hlength := length_of_rest hrest
  have hkey : substr str last (last + k.length - last) = k := by
    rw [substr, hrest, Nat.add_sub_cancel_left, List.take_left]
  have hvalue : str.drop (last + k.length + 1) = rest := drop_succ_of_rest (drop_key hrest)
  rw [parseParamLoop]
  simp only [strFind_of_append hrest hk]
  rw [if_neg (by unfold npos; omega), hkey]
  simp only [substr, hvalue]

theorem parseParamLoop_of_last (hlen : str.length < 2 ^ 64) (hflag : flag ≠ 61)
    (hrest : str.drop last = k ++ 61 :: v) (hk : 61 ∉ k) (hv : flag ∉ v) :
    parseParamLoop str flag trim (fuel + 1) last m =
      some (MapType.insert (trim k) (urlDecode v true) m) := by
  have hlength := length_of_rest hrest
  have hpos : strFind str flag (last + k.length) = npos := by
    apply strFind_of_notMem
    rw [drop_key hrest, List.mem_cons]
    exact not_or.mpr ⟨hflag, hv⟩
  -- `npos - key - 1` is more than what is left
  have hcount : v.length ≤ sizeSub (sizeSub npos (last + k.length)) 1 := by
    have hinner : sizeSub npos (last + k.length) = npos - (last + k.length) :=
      sizeSub_of_le (by unfold npos; omega)
    rw [hinner, sizeSub_of_le (by unfold npos; omega)]
    unfold npos
    omega
  rw [parseParamLoop_of_key hlen hrest hk]
  dsimp only
  rw [hpos, if_pos rfl, List.take_of_length_le hcount]

theorem parseParamLoop_of_pair (hlen : str.length < 2 ^ 64) (hflag : flag ≠ 61)
    (hrest : str.drop last = k ++ 61 :: (v ++ flag :: rest)) (hk : 61 ∉ k) (hv : flag ∉ v) :
    parseParamLoop str flag trim (fuel + 1) last m =
      parseParamLoop str flag trim fuel (last + k.length + (v.length + 1) + 1)
        (MapType.insert (trim k) (urlDecode v true) m) := by
  have hlength := length_of_rest hrest
  rw [List.length_append, List.length_cons] at hlength
  have hpos : strFind str flag (last + k.length) = last + k.length + (61 :: v).length := by
    apply strFind_of_append (b := rest)
    · rw [drop_key hrest, List.cons_append]
    · rw [List.mem_cons]
      exact not_or.mpr ⟨hflag, hv⟩
  rw [List.length_cons] at hpos
  have hcount : sizeSub (sizeSub (last + k.length + (v.length + 1)) (last + k.length)) 1 =
      v.length := by
    have hinner := sizeSub_of_le (Nat.le_add_right (last + k.length) (v.length + 1))
    rw [hinner, sizeSub_of_le (by omega)]
    omega
  rw [parseParamLoop_of_key hlen hrest hk]
  dsimp only
  rw [hpos, hcount, if_neg (by unfold npos; omega), List.take_left]

end Rounds

theorem parseParamLoop_eq (hlen : str.length < 2 ^ 64) (hflag : flag ≠ 61)
    (trim : List UInt8 → List UInt8)
    {fuel last : ℕ} (hlast : last ≤ str.length) (hfuel : str.length - last < fuel) (m : MapType) :
    parseParamLoop str flag trim fuel last m =
      some (MapType.insertAll
        ((scannedPairs flag [] ((str.drop last).splitOn flag)).map (storedPair trim)) m) := by
  -- Induction on the fuel: every round but the last takes an `=` and a delimiter.
  induction fuel generalizing last m with
  | zero => omega
  | succ fuel ih =>
    by_cases heq : 61 ∈ str.drop last
    · obtain ⟨k, r, hrest, hk⟩ := List.eq_append_cons_of_mem heq
      by_cases hdelim : flag ∈ r
      · obtain ⟨v, rest, rfl, hv⟩ := List.eq_append_cons_of_mem hdelim
        have hlength := length_of_rest hrest
        rw [List.length_append, List.length_cons] at hlength
        have hnext : str.drop (last + k.length + (v.length + 1) + 1) = rest := by
          apply drop_succ_of_rest (c := flag)
          rw [← List.drop_drop, drop_key hrest, List.drop_succ_cons, List.drop_left]
        rw [parseParamLoop_of_pair hlen hflag hrest hk hv, ih (by omega) (by omega), hnext,
          hrest, scannedPairs_next hflag (splitOn_append_cons hv rest) [] hk]
        rfl
      · rw [parseParamLoop_of_last hlen hflag hrest hk hdelim, hrest,
          scannedPairs_next hflag (List.splitOn_eq_singleton hdelim) [] hk]
        rfl
    · have hbare : ∀ p ∈ (str.drop last).splitOn flag, 61 ∉ p :=
        fun p hp hmem => heq (mem_of_mem_splitOn hp hmem)
      rw [parseParamLoop_of_notMem heq, scannedPairs_bare hbare]
      rfl

theorem parseParam_eq (hlen : str.length < 2 ^ 64) (hflag : flag ≠ 61)
    (trim : List UInt8 → List UInt8) (m : MapType) :
    parseParam str flag trim m =
      some (MapType.insertAll
        ((scannedPairs flag [] (str.splitOn flag)).map (storedPair trim)) m) := by
  rw [parseParam, parseParamLoop_eq hlen hflag trim (Nat.zero_le _) (by omega), List.drop_zero]

end Scanning

section Comparison

variable {flag : UInt8} {str front : List UInt8} {pieces : List (List UInt8)}

/-- With the bare pieces last, the loop reads the pieces plainly. -/
theorem scannedPairs_of_bareLast (hbare : BareLast pieces) :
    scannedPairs flag [] pieces = plainPairs pieces := by
  induction pieces with
  | nil => rfl
  | cons p ps ih =>
    obtain ⟨hhead, htail⟩ := List.pairwise_cons.mp hbare
    by_cases hp : 61 ∈ p
    · rw [scannedPairs, if_pos hp, ih htail, plainPairs, plainPairs,
        List.filter_cons_of_pos (by simpa using hp)]
      rfl
    · have hrest : ∀ q ∈ ps, 61 ∉ q := fun q hq => hhead q hq hp
      have hnone : ps.filter (61 ∈ ·) = [] := by
        rw [List.filter_eq_nil_iff]
        intro q hq
        simpa using hrest q hq
      rw [scannedPairs, if_neg hp, scannedPairs_bare hrest, plainPairs,
        List.filter_cons_of_neg (by simpa using hp), hnone]
      rfl

/-- A delimiter in front of a piece with `=` ends up in a key. -/
theorem exists_glued_of_front (hfront : flag ∈ front) (hpieces : ∃ q ∈ pieces, 61 ∈ q) :
    ∃ e ∈ scannedPairs flag front pieces, flag ∈ e.1 := by
  induction pieces generalizing front with
  | nil =>
    obtain ⟨q, hq, _⟩ := hpieces
    cases hq
  | cons p ps ih =>
    rw [scannedPairs]
    by_cases hp : 61 ∈ p
    · rw [if_pos hp]
      exact ⟨_, List.mem_cons_self, List.mem_append_left _ hfront⟩
    · rw [if_neg hp]
      obtain ⟨q, hq, heq⟩ := hpieces
      rcases List.mem_cons.mp hq with rfl | htail
      · exact absurd heq hp
      · exact ih (by simp) ⟨q, htail, heq⟩

/-- A bare piece in front of one with `=` leaves a delimiter in some key. -/
theorem exists_glued (hbare : ¬ BareLast pieces) (front : List UInt8) :
    ∃ e ∈ scannedPairs flag front pieces, flag ∈ e.1 := by
  induction pieces generalizing front with
  | nil => exact absurd List.Pairwise.nil hbare
  | cons p ps ih =>
    rw [scannedPairs]
    by_cases hp : 61 ∈ p
    · rw [if_pos hp]
      have htail : ¬ BareLast ps := by
        intro htail
        exact hbare (List.pairwise_cons.mpr ⟨fun _ _ hnot => absurd hp hnot, htail⟩)
      obtain ⟨e, he, hflag⟩ := ih htail []
      exact ⟨e, List.mem_cons_of_mem _ he, hflag⟩
    · rw [if_neg hp]
      by_cases htail : BareLast ps
      · apply exists_glued_of_front (by simp)
        by_contra hnone
        refine hbare (List.pairwise_cons.mpr ⟨fun q hq _ heq => ?_, htail⟩)
        exact hnone ⟨q, hq, heq⟩
      · exact ih htail _

/-- The keys are made of the pieces and of delimiters. -/
theorem scannedPairs_notMem {z : UInt8} (hz : z ≠ flag)
    (hfront : z ∉ front) (hpieces : ∀ p ∈ pieces, z ∉ p) :
    ∀ e ∈ scannedPairs flag front pieces, z ∉ e.1 := by
  induction pieces generalizing front with
  | nil =>
    exact nofun
  | cons p ps ih =>
    have hp := hpieces p List.mem_cons_self
    have hps : ∀ q ∈ ps, z ∉ q := fun q hq => hpieces q (List.mem_cons_of_mem p hq)
    rw [scannedPairs]
    by_cases heq : 61 ∈ p
    · rw [if_pos heq]
      intro e he
      rcases List.mem_cons.mp he with rfl | htail
      · rw [List.mem_append]
        exact not_or.mpr ⟨hfront, fun hkey => hp (List.takeWhile_subset _ hkey)⟩
      · exact ih List.not_mem_nil hps e htail
    · rw [if_neg heq]
      exact ih (by simp [hfront, hp, hz]) hps

theorem plainPairs_notMem : ∀ e ∈ plainPairs (str.splitOn flag), flag ∉ e.1 := by
  intro e he
  obtain ⟨p, hp, rfl⟩ := List.mem_map.mp he
  have hflag := notMem_of_mem_splitOn (List.mem_of_mem_filter hp)
  exact fun hkey => hflag (List.takeWhile_subset _ hkey)

theorem mem_foldCase {c : UInt8} {key : List UInt8} (hnul : 0 ∉ key) (hc : c ∈ key) :
    toLower c ∈ foldCase key := by
  have hall : key.takeWhile (· ≠ 0) = key := by
    rw [List.takeWhile_eq_self_iff]
    exact fun x hx => decide_eq_true (ne_of_mem_of_not_mem hx hnul)
  rw [foldCase, hall]
  exact List.mem_map_of_mem hc

theorem mem_of_mem_foldCase {key : List UInt8} (hflag : ∀ c, toLower c = flag → c = flag)
    (hmem : flag ∈ foldCase key) :
    flag ∈ key := by
  obtain ⟨c, hc, heq⟩ := List.mem_map.mp hmem
  rw [← hflag c heq]
  exact List.takeWhile_subset _ hc

/-- The loop and the plain reading of a string compared. -/
theorem parseParam_compare (flag : UInt8) (trim : List UInt8 → List UInt8)
    (hlen : str.length < 2 ^ 64) (hflag : flag ≠ 61) (hnul : flag ≠ 0)
    (hlower : ∀ c, toLower c = flag ↔ c = flag) (hkeep : ∀ k, flag ∈ k → flag ∈ trim k)
    (hsub : ∀ k, ∀ c ∈ trim k, c ∈ k) :
    ∃ m, parseParam str flag trim [] = some m ∧
      (BareLast (str.splitOn flag) → m = plainMap flag trim str) ∧
      (0 ∉ str → ¬ BareLast (str.splitOn flag) → m ≠ plainMap flag trim str) := by
  refine ⟨_, parseParam_eq hlen hflag trim [], ?_, ?_⟩
  · intro hbare
    rw [scannedPairs_of_bareLast hbare, plainMap]
  · intro hstr hbare heq
    have hkeys : ∃ e ∈ scannedPairs flag [] (str.splitOn flag), flag ∈ e.1 :=
      exists_glued hbare []
    obtain ⟨e, he, hglued⟩ := hkeys
    have hclean : 0 ∉ e.1 := by
      refine scannedPairs_notMem hnul.symm List.not_mem_nil ?_ e he
      exact fun p hp hzero => hstr (mem_of_mem_splitOn hp hzero)
    have hfold : flag ∈ foldCase (trim e.1) := by
      have hmem := mem_foldCase (fun hzero => hclean (hsub _ _ hzero)) (hkeep _ hglued)
      rw [(hlower flag).mpr rfl] at hmem
      exact hmem
    -- the glued key is in the map of the loop and not in the plain one
    have hnone : MapType.find (trim e.1) (plainMap flag trim str) = none := by
      rw [plainMap, find_insertAll]
      refine find_eq_none_iff.mpr ?_
      intro f hf hsame
      obtain ⟨g, hg, rfl⟩ := List.mem_map.mp hf
      rw [← hsame] at hfold
      have hin := mem_of_mem_foldCase (fun c hc => (hlower c).mp hc) hfold
      exact plainPairs_notMem g hg (hsub _ _ hin)
    rw [← heq, find_insertAll] at hnone
    exact find_eq_none_iff.mp hnone _ (List.mem_map_of_mem he) rfl

/-- `&` and `;` are not letters. -/
theorem toLower_eq_iff {flag : UInt8} (hflag : flag = 38 ∨ flag = 59) (c : UInt8) :
    toLower c = flag ↔ c = flag := by
  rcases hflag with rfl | rfl
  · exact forall_byte (P := fun c => toLower c = 38 ↔ c = 38) (by decide +kernel) c
  · exact forall_byte (P := fun c => toLower c = 59 ↔ c = 59) (by decide +kernel) c

/-- The cookies, where an empty header is not scanned at all. -/
theorem initCookies_compare {r : HttpRequest}
    (hlen : (r.getHeader (bytesOf "cookie") []).length < 2 ^ 64) :
    let cookie := r.getHeader (bytesOf "cookie") []
    ∃ r', initCookies (ParamRequest.new r) = some r' ∧
      (BareLast (cookie.splitOn 59) → r'.cookies = plainMap 59 trimKey cookie) ∧
      (0 ∉ cookie → ¬ BareLast (cookie.splitOn 59) →
        r'.cookies ≠ plainMap 59 trimKey cookie) := by
  intro cookie
  rw [initCookies, if_neg (by simp [ParamRequest.new])]
  by_cases hempty : cookie = []
  · refine ⟨_, if_pos hempty, fun _ => ?_, fun _ hbare => ?_⟩
    · rw [hempty]
      rfl
    · rw [hempty] at hbare
      exact absurd (List.pairwise_singleton _ _) hbare
  · have hkeep : ∀ k, 59 ∈ k → 59 ∈ trimKey k := fun k hk => mem_trim hk (by decide)
    obtain ⟨m, hparse, hplain, hglued⟩ :=
      parseParam_compare 59 trimKey hlen (by decide) (by decide)
        (toLower_eq_iff (Or.inr rfl)) hkeep (fun _ _ hmem => mem_of_mem_trim hmem)
    refine ⟨_, (if_neg hempty).trans (congrArg (Option.map _) hparse), hplain, hglued⟩

end Comparison

/--
**Parameters and cookies.**  The map the loop builds is the one splitting gives if no
piece without `=` stands in front of a piece with it, and for strings without NUL only
then.
-/
theorem params_eq_split_iff (r : HttpRequest) (hquery : r.query.length < 2 ^ 64)
    (hcookie : (r.getHeader (bytesOf "cookie") []).length < 2 ^ 64) :
    let query := r.query
    let cookie := r.getHeader (bytesOf "cookie") []
    ∃ rq rc,
      initQueryParam (ParamRequest.new r) = some rq ∧
      initCookies (ParamRequest.new r) = some rc ∧
      (BareLast (query.splitOn 38) → rq.params = plainMap 38 id query) ∧
      (0 ∉ query → ¬ BareLast (query.splitOn 38) → rq.params ≠ plainMap 38 id query) ∧
      (BareLast (cookie.splitOn 59) → rc.cookies = plainMap 59 trimKey cookie) ∧
      (0 ∉ cookie → ¬ BareLast (cookie.splitOn 59) →
        rc.cookies ≠ plainMap 59 trimKey cookie) := by
  intro query cookie
  obtain ⟨m, hparse, hplain, hglued⟩ :=
    parseParam_compare 38 id hquery (by decide) (by decide)
      (toLower_eq_iff (Or.inl rfl)) (fun _ hmem => hmem) (fun _ _ hmem => hmem)
  have hinit : initQueryParam (ParamRequest.new r) =
      some { ParamRequest.new r with params := m, parserParamFlag := 0 ||| 0x1 } := by
    rw [initQueryParam, if_neg (by simp [ParamRequest.new])]
    exact congrArg (Option.map _) hparse
  obtain ⟨rc, hrc, hcookies, hgluedCookies⟩ := initCookies_compare hcookie
  exact ⟨_, rc, hinit, hrc, hplain, hglued, hcookies, hgluedCookies⟩

/-- A request with a query. -/
def queryRequest (query : List UInt8) : HttpRequest :=
  { HttpRequest.new 0x11 true with query := query }

/-- A bare piece behind two pairs, one of them with an empty value. -/
theorem params_eq_split_bare_last :
    BareLast ((bytesOf "a=1&b=&c").splitOn 38) ∧
    ∃ rq, initQueryParam (ParamRequest.new (queryRequest (bytesOf "a=1&b=&c"))) = some rq ∧
      rq.params = plainMap 38 id (bytesOf "a=1&b=&c") := by
  have hbare : BareLast ((bytesOf "a=1&b=&c").splitOn 38) := by
    unfold BareLast
    decide
  obtain ⟨rq, rc, hrq, _, hplain, _⟩ :=
    params_eq_split_iff (queryRequest (bytesOf "a=1&b=&c")) (by decide) (by decide)
  exact ⟨hbare, rq, hrq, hplain hbare⟩

/-- A bare piece in front of a pair becomes part of its key. -/
theorem bare_piece_joins_next_key :
    ∃ rq, initQueryParam (ParamRequest.new (queryRequest (bytesOf "a&b=c"))) = some rq ∧
      rq.params = [(bytesOf "a&b", bytesOf "c")] ∧
      plainMap 38 id (bytesOf "a&b=c") = [(bytesOf "b", bytesOf "c")] :=
  ⟨_, rfl, by decide, by decide⟩

section Forms

/-- The unreserved characters of RFC 3986. -/
def rfcUnreserved (c : UInt8) : Bool :=
  (65 ≤ c ∧ c ≤ 90) ∨ (97 ≤ c ∧ c ≤ 122) ∨ (48 ≤ c ∧ c ≤ 57) ∨ c = 45 ∨ c = 46 ∨ c = 95 ∨ c = 126

/-- Pairs that can be sent as a form. -/
structure FormPairs (pairs : List (List UInt8 × List UInt8)) : Prop where
  key_ne : ∀ e ∈ pairs, e.1 ≠ []
  key_unreserved : ∀ e ∈ pairs, ∀ c ∈ e.1, rfcUnreserved c = true
  key_distinct : pairs.Pairwise fun e f => foldCase e.1 ≠ foldCase f.1

/-- `key=value`, with the value coded. -/
def formPiece (spaceAsPlus : Bool) (e : List UInt8 × List UInt8) : List UInt8 :=
  e.1 ++ 61 :: urlEncode e.2 spaceAsPlus

/-- The pairs joined by `&`. -/
def formQuery (spaceAsPlus : Bool) (pairs : List (List UInt8 × List UInt8)) : List UInt8 :=
  [38].intercalate (pairs.map (formPiece spaceAsPlus))

variable {pairs : List (List UInt8 × List UInt8)}

theorem FormPairs.key_notMem (h : FormPairs pairs)
    {e : List UInt8 × List UInt8} (he : e ∈ pairs) :
    61 ∉ e.1 ∧ 38 ∉ e.1 := by
  constructor
  · intro hmem
    cases h.key_unreserved e he 61 hmem
  · intro hmem
    cases h.key_unreserved e he 38 hmem

theorem notMem_urlEncode (value : List UInt8) (spaceAsPlus : Bool) :
    38 ∉ urlEncode value spaceAsPlus := by
  rw [urlEncode_eq, List.mem_flatMap]
  rintro ⟨c, _, hmem⟩
  rcases charIsUnreserved_of_mem_encodeByte hmem with hunreserved | hplus | hpercent
  · cases hunreserved
  · cases hplus
  · cases hpercent

theorem FormPairs.piece_notMem (h : FormPairs pairs) (spaceAsPlus : Bool) :
    ∀ piece ∈ pairs.map (formPiece spaceAsPlus), 38 ∉ piece := by
  intro piece hpiece
  obtain ⟨e, he, rfl⟩ := List.mem_map.mp hpiece
  rw [formPiece, List.mem_append, List.mem_cons]
  rintro (hkey | hequals | hvalue)
  · exact (h.key_notMem he).2 hkey
  · cases hequals
  · exact notMem_urlEncode e.2 spaceAsPlus hvalue

theorem FormPairs.scannedPairs_eq (h : FormPairs pairs) (spaceAsPlus : Bool) :
    (scannedPairs 38 [] ((formQuery spaceAsPlus pairs).splitOn 38)).map (storedPair id) =
      pairs := by
  by_cases hnil : pairs = []
  · subst hnil
    rfl
  · have hequals : ∀ piece ∈ pairs.map (formPiece spaceAsPlus), 61 ∈ piece := by
      intro piece hpiece
      obtain ⟨e, _, rfl⟩ := List.mem_map.mp hpiece
      simp [formPiece]
    have hbare : BareLast (pairs.map (formPiece spaceAsPlus)) :=
      List.pairwise_of_forall_mem_list fun p hp _ _ hnot => absurd (hequals p hp) hnot
    have hfilter : (pairs.map (formPiece spaceAsPlus)).filter (61 ∈ ·) =
        pairs.map (formPiece spaceAsPlus) := by
      rw [List.filter_eq_self]
      intro piece hpiece
      simpa using hequals piece hpiece
    rw [formQuery, List.splitOn_intercalate 38 (h.piece_notMem spaceAsPlus) (by simpa using hnil),
      scannedPairs_of_bareLast hbare, plainPairs, hfilter, List.map_map, List.map_map]
    refine (List.map_congr_left ?_).trans (List.map_id' pairs)
    intro e he
    have hkey := (h.key_notMem he).1
    have hvalue : urlDecode (urlEncode e.2 spaceAsPlus) true = e.2 := by
      rw [urlEncode_eq, urlDecode_eq, plainDecode_flatMap fun _ => rfl]
    simp only [Function.comp, storedPair, formPiece, pieceKey_append hkey,
      pieceValue_append hkey, hvalue, id]

theorem FormPairs.initQueryParam (h : FormPairs pairs) (spaceAsPlus : Bool)
    {r : HttpRequest} (hquery : r.query = formQuery spaceAsPlus pairs)
    (hlen : r.query.length < 2 ^ 64) :
    Http.initQueryParam (ParamRequest.new r) =
      some { ParamRequest.new r with
        params := MapType.insertAll pairs []
        parserParamFlag := 0x1 } := by
  have hflag : (38 : UInt8) ≠ 61 := by decide
  have hparse := parseParam_eq hlen hflag id []
  rw [hquery, h.scannedPairs_eq spaceAsPlus, ← hquery] at hparse
  rw [Http.initQueryParam, if_neg (by simp [ParamRequest.new])]
  change Option.map _ (parseParam r.query 38 id []) = _
  rw [hparse]
  simp [ParamRequest.new]

/-- The body adds its pairs to the parameters, if it holds any. -/
theorem initBodyParam_adds (r : ParamRequest) (hlen : r.request.body.length < 2 ^ 64) :
    ∃ r' added,
      initBodyParam r = some r' ∧
      r'.params = MapType.insertAll added r.params ∧
      (r.request.body = [] ∨ r.request.hasFormType = false → added = []) := by
  rw [initBodyParam]
  by_cases hparsed : r.parserParamFlag &&& 0x2 ≠ 0
  · rw [if_pos hparsed]
    exact ⟨r, [], rfl, rfl, fun _ => rfl⟩
  · rw [if_neg hparsed]
    by_cases hform : r.request.hasFormType = false
    · rw [if_pos hform]
      exact ⟨_, [], rfl, rfl, fun _ => rfl⟩
    · have hflag : (38 : UInt8) ≠ 61 := by decide
      rw [if_neg hform, parseParam_eq hlen hflag]
      refine ⟨_, _, rfl, rfl, fun hnone => ?_⟩
      rw [hnone.resolve_right hform]
      rfl

end Forms

/--
**Form values.**  The parameters of a query made of coded pairs are these pairs and no
others.  `getParam` finds each of them in any spelling of its case, whatever the body
holds, and finds no other key if the body holds no parameters.
-/
theorem formQuery_params {pairs : List (List UInt8 × List UInt8)} (h : FormPairs pairs)
    (spaceAsPlus : Bool) (r : HttpRequest) (hquery : r.query = formQuery spaceAsPlus pairs)
    (hlen : r.query.length < 2 ^ 64) (hbody : r.body.length < 2 ^ 64) :
    ∃ rq r',
      initQueryParam (ParamRequest.new r) = some rq ∧
      rq.params.Perm pairs ∧
      (∀ e ∈ pairs, ∀ key dflt, foldCase key = foldCase e.1 →
        getParam key dflt (ParamRequest.new r) = some (e.2, r')) ∧
      (r.body = [] ∨ r.hasFormType = false →
        ∀ key dflt, (∀ e ∈ pairs, foldCase e.1 ≠ foldCase key) →
          getParam key dflt (ParamRequest.new r) = some (dflt, r')) := by
  have hinit := h.initQueryParam spaceAsPlus hquery hlen
  set rq : ParamRequest :=
    { ParamRequest.new r with
      params := MapType.insertAll pairs []
      parserParamFlag := 0x1 } with hrq
  obtain ⟨r', added, hbodyInit, hparams, hnone⟩ := initBodyParam_adds rq hbody
  -- the pairs of the query come first, so the body cannot change them
  have hget : ∀ key dflt, getParam key dflt (ParamRequest.new r) =
      some (((MapType.find key pairs).or (MapType.find key added)).getD dflt, r') := by
    intro key dflt
    have hfind : MapType.find key rq.params = MapType.find key pairs := find_insertAll pairs []
    rw [getParam, hinit]
    dsimp only
    rw [hbodyInit]
    dsimp only
    rw [hparams, find_insertAll, hfind]
  refine ⟨rq, r', hinit, ?_, ?_, ?_⟩
  · exact insertAll_perm h.key_distinct fun _ _ => rfl
  · intro e he key dflt hkey
    rw [hget, find_of_mem h.key_distinct he hkey.symm]
    rfl
  · intro hplain key dflt hkey
    rw [hget, find_eq_none_iff.mpr hkey, hnone hplain]
    rfl

/-- Two pairs, with a value made of special characters. -/
theorem formQuery_params_special :
    FormPairs [(bytesOf "k", bytesOf "a=b&c+d%"), (bytesOf "L-1", [0, 255, 32])] ∧
    ∃ r',
      getParam (bytesOf "K") [] (ParamRequest.new (queryRequest (formQuery true
        [(bytesOf "k", bytesOf "a=b&c+d%"), (bytesOf "L-1", [0, 255, 32])]))) =
        some (bytesOf "a=b&c+d%", r') := by
  have hform : FormPairs [(bytesOf "k", bytesOf "a=b&c+d%"), (bytesOf "L-1", [0, 255, 32])] :=
    ⟨by decide, by simp [bytesOf, rfcUnreserved], by decide⟩
  obtain ⟨_, r', _, _, hget, _⟩ :=
    formQuery_params hform true (queryRequest (formQuery true
      [(bytesOf "k", bytesOf "a=b&c+d%"), (bytesOf "L-1", [0, 255, 32])])) rfl (by decide)
      (by decide)
  exact ⟨hform, r', hget _ List.mem_cons_self _ _ (by decide)⟩

end Http
end Civan
