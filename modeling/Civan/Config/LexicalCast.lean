import Mathlib.Data.List.Lex
import Mathlib.Data.Prod.Lex
import Mathlib.Data.String.Basic
import Mathlib.Logic.Equiv.List
import Civan.Config.Yaml
import Civan.Lib.OrderedSet

/-!
# Printing and reading configuration values

`LexicalCast` prints and reads values built from `int` by `vector`, `list`, `set` and
maps from strings.  The printers treat elements in two ways.  A map stores the tree that
`YAML::Load` makes of the text of a value; a sequence stores the text itself, as a
scalar.  Read back, such a scalar is a container only if the container was empty: it has
no size and no elements.

yaml-cpp and `boost::lexical_cast` are parameters with the laws that are assumed of them.
-/

namespace Civan
namespace Config

section Values

variable {α : Type} [LinearOrder α]

/-- `std::less` of the elements. -/
def setLt (a b : α) : Bool :=
  a < b

/-- `std::less` of the keys. -/
def keyLt {β : Type} (a b : String × β) : Bool :=
  a.1 < b.1

theorem strict_setLt : OrderedSet.Strict (setLt (α := α)) where
  irrefl := by simp [setLt]
  trans := by
    intro x y z
    simp only [setLt, decide_eq_true_eq]
    exact lt_trans

theorem strict_keyLt {β : Type} : OrderedSet.Strict (keyLt (β := β)) where
  irrefl := by simp [keyLt]
  trans := by
    intro x y z
    simp only [keyLt, decide_eq_true_eq]
    exact lt_trans

/-- `std::set<T>`. -/
@[ext]
structure OrdSet (α : Type) [LinearOrder α] where
  elems : List α
  sorted : OrderedSet.Sorted setLt elems

/-- `std::map<std::string, T>`. -/
@[ext]
structure OrdMap (α : Type) where
  pairs : List (String × α)
  sorted : OrderedSet.Sorted keyLt pairs

/-- The elements inserted one after the other. -/
def OrdSet.ofList (l : List α) : OrdSet α :=
  ⟨OrderedSet.insertAll setLt l, OrderedSet.sorted_insertAll strict_setLt l⟩

/-- The pairs inserted one after the other; a key that is there stays. -/
def OrdMap.ofList {β : Type} (l : List (String × β)) : OrdMap β :=
  ⟨OrderedSet.insertAll keyLt l, OrderedSet.sorted_insertAll strict_keyLt l⟩

/-- `operator<` of `std::set`. -/
instance : LinearOrder (OrdSet α) :=
  LinearOrder.lift' OrdSet.elems (fun _ _ h => OrdSet.ext h)

/-- `operator<` of `std::map`: that of the sequence of pairs. -/
instance : LinearOrder (OrdMap α) :=
  LinearOrder.lift' (fun m => m.pairs.map toLex)
    (fun _ _ h => OrdMap.ext (List.map_injective_iff.mpr toLex.injective h))

/-- The types of configuration values. -/
inductive Ty where
  | int
  | vector (t : Ty)
  | list (t : Ty)
  | set (t : Ty)
  | map (t : Ty)
deriving DecidableEq, Repr

/-- The values of a type, with `operator<`. -/
def Ty.denote : Ty → (α : Type) × LinearOrder α
  | .int => ⟨ℤ, inferInstance⟩
  | .vector t => ⟨List t.denote.1, @List.instLinearOrder _ t.denote.2⟩
  | .list t => ⟨List t.denote.1, @List.instLinearOrder _ t.denote.2⟩
  | .set t => ⟨@OrdSet t.denote.1 t.denote.2, @instLinearOrderOrdSet _ t.denote.2⟩
  | .map t => ⟨OrdMap t.denote.1, @instLinearOrderOrdMap _ t.denote.2⟩

/-- The values of a type. -/
abbrev Ty.Val (t : Ty) : Type :=
  t.denote.1

instance (t : Ty) : LinearOrder t.Val :=
  t.denote.2

end Values

section Model

/-- yaml-cpp and `boost::lexical_cast` on `int`; `none` is an exception. -/
structure Library where
  /-- `ss << node`. -/
  emit : Node → String
  /-- `YAML::Load`. -/
  load : String → Option Node
  toText : ℤ → String
  ofText : String → Option ℤ
  load_emit : ∀ node, load (emit node) = some node
  ofText_toText : ∀ n, ofText (toText n) = some n
  /-- The text of a number is printed without quotes. -/
  emit_int : ∀ n, emit (.scalar (toText n)) = toText n

variable (L : Library)

/-- The printer of `vector`, `list` and `set`. -/
def encodeSeq {α : Type} (cast : α → Option String) (v : List α) : Option String :=
  (v.foldlM (fun node i => (cast i).bind node.pushBack) Node.null).map L.emit

/-- The printer of maps. -/
def encodeMap {α : Type} (cast : α → Option String) (m : List (String × α)) :
    Option String :=
  (m.foldlM (fun node i => ((cast i.2).bind L.load).bind (node.setKey i.1)) Node.null).map L.emit

/-- `LexicalCast<T, std::string>`. -/
def encode : (t : Ty) → t.Val → Option String
  | .int => fun n => some (L.toText n)
  | .vector t => encodeSeq L (encode t)
  | .list t => encodeSeq L (encode t)
  | .set t => fun v => encodeSeq L (encode t) v.elems
  | .map t => fun m => encodeMap L (encode t) m.pairs

/-- The elements that the readers of `vector`, `list` and `set` see. -/
def decodeSeq {α : Type} (cast : String → Option α) (s : String) : Option (List α) :=
  ((L.load s).bind Node.items).bind fun items => items.mapM fun i => cast (L.emit i)

/-- The pairs that the reader of maps sees. -/
def decodeMap {α : Type} (cast : String → Option α) (s : String) :
    Option (List (String × α)) :=
  ((L.load s).bind Node.pairs).bind fun pairs =>
    pairs.mapM fun i => (cast (L.emit i.2)).map fun v => (i.1, v)

/-- `LexicalCast<std::string, T>`. -/
def decode : (t : Ty) → String → Option t.Val
  | .int => L.ofText
  | .vector t => decodeSeq L (decode t)
  | .list t => decodeSeq L (decode t)
  | .set t => fun s => (decodeSeq L (decode t) s).map OrdSet.ofList
  | .map t => fun s => (decodeMap L (decode t) s).map OrdMap.ofList

/-- The value is printed, and what is read back is the value. -/
def RoundTrips (t : Ty) (v : t.Val) : Prop :=
  (encode L t v).bind (decode L t) = some v

end Model

section Trees

variable (L : Library)

/-- The node after `push_back` of some texts. -/
def seqOf : List String → Node
  | [] => .null
  | text :: texts => .seq ((text :: texts).map .scalar)

/-- The node after some assignments to new keys. -/
def mapOf : List (String × Node) → Node
  | [] => .null
  | entry :: entries => .map (entry :: entries)

/-- The node that is printed for a value. -/
def tree : (t : Ty) → t.Val → Node
  | .int => fun n => .scalar (L.toText n)
  | .vector t => fun v => seqOf (v.map fun x => L.emit (tree t x))
  | .list t => fun v => seqOf (v.map fun x => L.emit (tree t x))
  | .set t => fun v => seqOf (v.elems.map fun x => L.emit (tree t x))
  | .map t => fun m => mapOf (m.pairs.map fun i => (i.1, tree t i.2))

theorem pushBack_seqOf (texts : List String) (text : String) :
    (seqOf texts).pushBack text = some (seqOf (texts ++ [text])) := by
  cases texts with
  | nil => rfl
  | cons a texts => simp [seqOf, Node.pushBack]

theorem setKey_mapOf {entries : List (String × Node)} {key : String}
    (hnew : key ∉ entries.map Prod.fst) (value : Node) :
    (mapOf entries).setKey key value = some (mapOf (entries ++ [(key, value)])) := by
  cases entries with
  | nil => rfl
  | cons a entries =>
    rw [mapOf, Node.setKey, if_neg hnew]
    rfl

@[simp] theorem items_seqOf (texts : List String) :
    (seqOf texts).items = some (texts.map .scalar) := by
  cases texts with
  | nil => rfl
  | cons a texts => rfl

@[simp] theorem pairs_mapOf (entries : List (String × Node)) :
    (mapOf entries).pairs = some entries := by
  cases entries with
  | nil => rfl
  | cons a entries => rfl

theorem encodeSeq_eq {α : Type} {cast : α → Option String} {text : α → String}
    (hcast : ∀ x, cast x = some (text x)) (v : List α) :
    encodeSeq L cast v = some (L.emit (seqOf (v.map text))) := by
  have hloop : ∀ (v : List α) (texts : List String),
      v.foldlM (fun node i => (cast i).bind node.pushBack) (seqOf texts) =
        some (seqOf (texts ++ v.map text)) := by
    intro v
    induction v with
    | nil =>
      intro texts
      simp
    | cons x v ih =>
      intro texts
      rw [List.foldlM_cons, hcast x, Option.bind_some, pushBack_seqOf,
        List.map_cons, List.append_cons texts (text x) (v.map text)]
      exact ih (texts ++ [text x])
  have h := hloop v []
  rw [List.nil_append] at h
  rw [encodeSeq]
  exact congrArg (Option.map L.emit) h

theorem encodeMap_eq {α : Type} {cast : α → Option String} {node : α → Node}
    (hcast : ∀ x, cast x = some (L.emit (node x)))
    {m : List (String × α)} (hm : OrderedSet.Sorted keyLt m) :
    encodeMap L cast m = some (L.emit (mapOf (m.map fun i => (i.1, node i.2)))) := by
  have hnodup : (m.map Prod.fst).Nodup := by
    rw [List.nodup_iff_pairwise_ne, List.pairwise_map]
    refine hm.imp ?_
    intro a b hlt heq
    simp [keyLt, heq] at hlt
  have hloop : ∀ (m : List (String × α)) (entries : List (String × Node)),
      (entries.map Prod.fst ++ m.map Prod.fst).Nodup →
      m.foldlM (fun node i => ((cast i.2).bind L.load).bind (node.setKey i.1)) (mapOf entries) =
        some (mapOf (entries ++ m.map fun i => (i.1, node i.2))) := by
    intro m
    induction m with
    | nil =>
      intro entries _
      simp
    | cons i m ih =>
      intro entries hnodup
      have hnew : i.1 ∉ entries.map Prod.fst := by
        intro hmem
        exact (List.nodup_append.mp hnodup).2.2 _ hmem i.1 (by simp) rfl
      rw [List.foldlM_cons, hcast i.2, Option.bind_some, L.load_emit, Option.bind_some,
        setKey_mapOf hnew, List.map_cons,
        List.append_cons entries (i.1, node i.2) (m.map fun i => (i.1, node i.2))]
      refine ih (entries ++ [(i.1, node i.2)]) ?_
      rw [List.map_append, List.append_assoc]
      exact hnodup
  have h := hloop m [] hnodup
  rw [List.nil_append] at h
  rw [encodeMap]
  exact congrArg (Option.map L.emit) h

theorem encode_eq (t : Ty) (v : t.Val) : encode L t v = some (L.emit (tree L t v)) := by
  induction t with
  | int => exact congrArg some (L.emit_int v).symm
  | vector t ih => exact encodeSeq_eq L ih v
  | list t ih => exact encodeSeq_eq L ih v
  | set t ih => exact encodeSeq_eq L ih v.elems
  | map t ih => exact encodeMap_eq L ih v.sorted

end Trees

section Reload

variable (L : Library)

/-- What is read back of an element of a sequence. -/
def reread : (t : Ty) → t.Val → t.Val
  | .int => fun n => n
  | .vector _ => fun _ => []
  | .list _ => fun _ => []
  | .set _ => fun _ => OrdSet.ofList []
  | .map _ => fun _ => OrdMap.ofList []

/-- What is read back of a value. -/
def reload : (t : Ty) → t.Val → t.Val
  | .int => fun n => n
  | .vector t => fun v => v.map (reread t)
  | .list t => fun v => v.map (reread t)
  | .set t => fun v => OrdSet.ofList (v.elems.map (reread t))
  | .map t => fun m => OrdMap.ofList (m.pairs.map fun i => (i.1, reload t i.2))

theorem decodeSeq_scalar {α : Type} (cast : String → Option α) (text : String) :
    decodeSeq L cast (L.emit (.scalar text)) = some [] := by
  simp [decodeSeq, L.load_emit, Node.items]

theorem decodeMap_scalar {α : Type} (cast : String → Option α) (text : String) :
    decodeMap L cast (L.emit (.scalar text)) = some [] := by
  simp [decodeMap, L.load_emit, Node.pairs]

theorem ofText_emit (n : ℤ) : L.ofText (L.emit (.scalar (L.toText n))) = some n := by
  rw [L.emit_int, L.ofText_toText]

theorem decodeSeq_seqOf {α β : Type} {cast : String → Option α} {text : β → String} {g : β → α}
    (hcast : ∀ x, cast (L.emit (.scalar (text x))) = some (g x)) (v : List β) :
    decodeSeq L cast (L.emit (seqOf (v.map text))) = some (v.map g) := by
  simp only [decodeSeq, L.load_emit, Option.bind_some, items_seqOf]
  induction v with
  | nil => rfl
  | cons x v ih =>
    rw [List.map_cons, List.map_cons, List.mapM_cons, hcast, ih]
    rfl

theorem decodeMap_mapOf {α β : Type} {cast : String → Option α} {node : β → Node} {g : β → α}
    (hcast : ∀ x, cast (L.emit (node x)) = some (g x)) (m : List (String × β)) :
    decodeMap L cast (L.emit (mapOf (m.map fun i => (i.1, node i.2)))) =
      some (m.map fun i => (i.1, g i.2)) := by
  simp only [decodeMap, L.load_emit, Option.bind_some, pairs_mapOf]
  induction m with
  | nil => rfl
  | cons i m ih => simp [List.mapM_cons, hcast, ih]

/-- An element of a sequence has become a scalar: of a container nothing is left. -/
theorem decode_scalar (t : Ty) (x : t.Val) :
    decode L t (L.emit (.scalar (L.emit (tree L t x)))) = some (reread t x) := by
  cases t with
  | int =>
    have hemit : L.emit (tree L .int x) = L.toText x := L.emit_int x
    rw [hemit]
    exact ofText_emit L x
  | vector t => exact decodeSeq_scalar L _ _
  | list t => exact decodeSeq_scalar L _ _
  | set t => exact congrArg (Option.map OrdSet.ofList) (decodeSeq_scalar L _ _)
  | map t => exact congrArg (Option.map OrdMap.ofList) (decodeMap_scalar L _ _)

theorem decode_tree (t : Ty) (v : t.Val) :
    decode L t (L.emit (tree L t v)) = some (reload t v) := by
  induction t with
  | int => exact ofText_emit L v
  | vector t _ => exact decodeSeq_seqOf L (decode_scalar L t) v
  | list t _ => exact decodeSeq_seqOf L (decode_scalar L t) v
  | set t _ =>
    exact congrArg (Option.map OrdSet.ofList) (decodeSeq_seqOf L (decode_scalar L t) v.elems)
  | map t ih => exact congrArg (Option.map OrdMap.ofList) (decodeMap_mapOf L ih v.pairs)

theorem encode_bind_decode (t : Ty) (v : t.Val) :
    (encode L t v).bind (decode L t) = some (reload t v) := by
  rw [encode_eq, Option.bind_some, decode_tree]

end Reload

section Survival

/-- Nothing is lost of an element of a sequence: it is an `int`, or an empty container. -/
def Flat : (t : Ty) → t.Val → Prop
  | .int => fun _ => True
  | .vector _ => fun v => v = []
  | .list _ => fun v => v = []
  | .set _ => fun v => v.elems = []
  | .map _ => fun m => m.pairs = []

/-- Nothing is lost of a value: no sequence in it, outside of sequences, has an element
that is a container with something in it. -/
def Survives : (t : Ty) → t.Val → Prop
  | .int => fun _ => True
  | .vector t => fun (v : List t.Val) => ∀ x ∈ v, Flat t x
  | .list t => fun (v : List t.Val) => ∀ x ∈ v, Flat t x
  | .set t => fun v => ∀ x ∈ v.elems, Flat t x
  | .map t => fun m => ∀ i ∈ m.pairs, Survives t i.2

theorem reread_eq_iff (t : Ty) (x : t.Val) : reread t x = x ↔ Flat t x := by
  cases t with
  | int => exact iff_of_true rfl trivial
  | vector t => exact eq_comm
  | list t => exact eq_comm
  | set t => exact eq_comm.trans OrdSet.ext_iff
  | map t => exact eq_comm.trans OrdMap.ext_iff

theorem reread_reread (t : Ty) (x : t.Val) : reread t (reread t x) = reread t x := by
  cases t with
  | int | vector | list | set | map => rfl

theorem map_eq_self_iff {α : Type} {f : α → α} {l : List α} :
    l.map f = l ↔ ∀ x ∈ l, f x = x := by
  induction l with
  | nil => simp
  | cons a l ih => simp [ih]

/-- Inserting changed elements gives the set back only if they are not changed. -/
theorem ofList_map_eq_iff
    {α : Type} [LinearOrder α] {f : α → α} (hf : ∀ x, f (f x) = f x) (s : OrdSet α) :
    OrdSet.ofList (s.elems.map f) = s ↔ ∀ x ∈ s.elems, f x = x := by
  constructor
  · intro h x hx
    have hmem : x ∈ OrderedSet.insertAll setLt (s.elems.map f) := by
      rw [← h] at hx
      exact hx
    obtain ⟨y, _, rfl⟩ := List.mem_map.mp (OrderedSet.mem_of_mem_insertAll hmem)
    exact hf y
  · intro h
    refine OrdSet.ext ?_
    change OrderedSet.insertAll setLt (s.elems.map f) = s.elems
    rw [map_eq_self_iff.mpr h]
    exact OrderedSet.insertAll_of_sorted s.sorted

/-- Inserting pairs with changed values gives the map back only if no value is changed. -/
theorem ofList_mapValues_eq_iff {α : Type} (f : α → α) (m : OrdMap α) :
    OrdMap.ofList (m.pairs.map fun i => (i.1, f i.2)) = m ↔ ∀ i ∈ m.pairs, f i.2 = i.2 := by
  have hsorted : OrderedSet.Sorted keyLt (m.pairs.map fun i => (i.1, f i.2)) :=
    List.pairwise_map.mpr m.sorted
  have hofList : (OrdMap.ofList (m.pairs.map fun i => (i.1, f i.2))).pairs =
      m.pairs.map fun i => (i.1, f i.2) :=
    OrderedSet.insertAll_of_sorted hsorted
  rw [OrdMap.ext_iff, hofList, map_eq_self_iff]
  refine forall₂_congr fun i _ => ?_
  rw [Prod.ext_iff]
  exact and_iff_right rfl

theorem reload_eq_iff (t : Ty) (v : t.Val) : reload t v = v ↔ Survives t v := by
  induction t with
  | int => exact iff_of_true rfl trivial
  | vector t _ => exact map_eq_self_iff.trans (forall₂_congr fun x _ => reread_eq_iff t x)
  | list t _ => exact map_eq_self_iff.trans (forall₂_congr fun x _ => reread_eq_iff t x)
  | set t _ =>
    exact (ofList_map_eq_iff (reread_reread t) v).trans
      (forall₂_congr fun x _ => reread_eq_iff t x)
  | map t ih =>
    exact (ofList_mapValues_eq_iff (reload t) v).trans (forall₂_congr fun i _ => ih i.2)

/--
A value survives printing and reading exactly if no vector, list or set in it, reached
through maps only, has an element that is a container with something in it.
-/
theorem lexicalCast_roundTrips_iff (L : Library) (t : Ty) (v : t.Val) :
    RoundTrips L t v ↔ Survives t v := by
  rw [RoundTrips, encode_bind_decode, Option.some.injEq]
  exact reload_eq_iff t v

end Survival

section Sample

mutual

/-- A node as a list of words that can be read from the left. -/
def Node.words : Node → List (List ℕ)
  | .null => [[0]]
  | .scalar text => [[1], text.toList.map Char.toNat]
  | .seq items => [2] :: seqWords items
  | .map entries => [3] :: mapWords entries

def seqWords : List Node → List (List ℕ)
  | [] => [[4]]
  | node :: items => node.words ++ seqWords items

def mapWords : List (String × Node) → List (List ℕ)
  | [] => [[4]]
  | (key, node) :: entries => [5] :: key.toList.map Char.toNat :: (node.words ++ mapWords entries)

end

theorem text_inj {s s' : String} (h : s.toList.map Char.toNat = s'.toList.map Char.toNat) :
    s = s' := by
  have hinj : Function.Injective Char.toNat := fun _ _ h => Char.toNat_inj.mp h
  exact String.toList_inj.mp (List.map_injective_iff.mpr hinj h)

theorem words_ne_end (node : Node) (r r' : List (List ℕ)) : node.words ++ r ≠ [4] :: r' := by
  cases node with
  | null | scalar | seq | map => simp [Node.words]

mutual

theorem words_inj (node node' : Node) (r r' : List (List ℕ))
    (h : node.words ++ r = node'.words ++ r') :
    node = node' ∧ r = r' := by
  cases node with
  | null =>
    cases node' with
    | null => simpa [Node.words] using h
    | scalar | seq | map => simp [Node.words] at h
  | scalar text =>
    cases node' with
    | scalar text' =>
      simp only [Node.words, List.cons_append, List.nil_append, List.cons.injEq] at h
      rw [text_inj h.2.1]
      exact ⟨rfl, h.2.2⟩
    | null | seq | map => simp [Node.words] at h
  | seq items =>
    cases node' with
    | seq items' =>
      simp only [Node.words, List.cons_append, List.cons.injEq, true_and] at h
      obtain ⟨hitems, hr⟩ := seqWords_inj items items' r r' h
      rw [hitems]
      exact ⟨rfl, hr⟩
    | null | scalar | map => simp [Node.words] at h
  | map entries =>
    cases node' with
    | map entries' =>
      simp only [Node.words, List.cons_append, List.cons.injEq, true_and] at h
      obtain ⟨hentries, hr⟩ := mapWords_inj entries entries' r r' h
      rw [hentries]
      exact ⟨rfl, hr⟩
    | null | scalar | seq => simp [Node.words] at h

theorem seqWords_inj (items items' : List Node) (r r' : List (List ℕ))
    (h : seqWords items ++ r = seqWords items' ++ r') :
    items = items' ∧ r = r' := by
  cases items with
  | nil =>
    cases items' with
    | nil => simpa [seqWords] using h
    | cons node' items' =>
      simp only [seqWords, List.append_assoc] at h
      exact absurd h.symm (words_ne_end node' _ _)
  | cons node items =>
    cases items' with
    | nil =>
      simp only [seqWords, List.append_assoc] at h
      exact absurd h (words_ne_end node _ _)
    | cons node' items' =>
      simp only [seqWords, List.append_assoc] at h
      obtain ⟨hnode, hrest⟩ := words_inj node node' _ _ h
      obtain ⟨hitems, hr⟩ := seqWords_inj items items' r r' hrest
      rw [hnode, hitems]
      exact ⟨rfl, hr⟩

theorem mapWords_inj (entries entries' : List (String × Node)) (r r' : List (List ℕ))
    (h : mapWords entries ++ r = mapWords entries' ++ r') :
    entries = entries' ∧ r = r' := by
  match entries, entries' with
  | [], [] => simpa [mapWords] using h
  | [], (key', node') :: entries' => simp [mapWords] at h
  | (key, node) :: entries, [] => simp [mapWords] at h
  | (key, node) :: entries, (key', node') :: entries' =>
    simp only [mapWords, List.cons_append, List.cons.injEq, true_and, List.append_assoc] at h
    obtain ⟨hnode, hrest⟩ := words_inj node node' _ _ h.2
    obtain ⟨hentries, hr⟩ := mapWords_inj entries entries' r r' hrest
    rw [text_inj h.1, hnode, hentries]
    exact ⟨rfl, hr⟩

end

/-- Decimal digits, after a minus sign or not. -/
def sampleOfText (s : String) : Option ℤ :=
  match s.toList with
  | '-' :: digits => some (-(Nat.ofDigitChars 10 digits 0 : ℤ))
  | digits => some (Nat.ofDigitChars 10 digits 0 : ℤ)

theorem toList_natRepr (n : ℕ) : n.repr.toList = Nat.toDigits 10 n := by
  rw [Nat.repr_eq_ofList_toDigits, String.toList_ofList]

theorem sampleOfText_repr (n : ℤ) : sampleOfText n.repr = some n := by
  cases n with
  | ofNat n =>
    have hlist : (Int.repr (.ofNat n)).toList = Nat.toDigits 10 n := toList_natRepr n
    rw [sampleOfText, hlist]
    split
    · rename_i digits hdigits
      have hdigit : '-'.isDigit = true := by
        refine Nat.isDigit_of_mem_toDigits (b := 10) (n := n) (by decide) (by decide) ?_
        rw [hdigits]
        exact List.mem_cons_self
      cases hdigit
    · rw [Nat.ofDigitChars_ten_toDigits]
      rfl
  | negSucc n =>
    have hlist : (Int.repr (.negSucc n)).toList = '-' :: Nat.toDigits 10 (n + 1) := by
      rw [← toList_natRepr]
      exact String.toList_append
    rw [sampleOfText, hlist]
    simp only [Nat.ofDigitChars_ten_toDigits]
    rfl

/-- A scalar that is the text of a number. -/
def Node.number : Node → Option ℤ
  | .scalar text => (sampleOfText text).filter fun n => n.repr = text
  | _ => none

/-- A printer that writes numbers as they are, and other nodes as the code of their words
after an exclamation mark. -/
def sampleEmit (node : Node) : String :=
  match node.number with
  | some n => n.repr
  | none => "!" ++ (Encodable.encode node.words).repr

theorem number_eq_some {node : Node} {n : ℤ} :
    node.number = some n ↔ node = .scalar n.repr := by
  cases node with
  | scalar text =>
    simp only [Node.number, Option.filter_eq_some_iff, decide_eq_true_eq, Node.scalar.injEq]
    constructor
    · rintro ⟨_, h⟩
      exact h.symm
    · rintro rfl
      exact ⟨sampleOfText_repr n, rfl⟩
  | null | seq | map => simp [Node.number]

theorem repr_inj {n n' : ℤ} (h : n.repr = n'.repr) : n = n' := by
  have hread := sampleOfText_repr n
  rw [h, sampleOfText_repr] at hread
  exact (Option.some.inj hread).symm

/-- No number is written with an exclamation mark. -/
theorem repr_ne_mark (n : ℤ) (s : String) : n.repr ≠ "!" ++ s := by
  intro h
  have hlist : n.repr.toList = '!' :: s.toList := by
    rw [h]
    exact String.toList_append
  cases n with
  | ofNat n =>
    have hdigit : '!'.isDigit = true := by
      refine Nat.isDigit_of_mem_toDigits (b := 10) (n := n) (by decide) (by decide) ?_
      rw [← toList_natRepr]
      exact hlist ▸ List.mem_cons_self
    cases hdigit
  | negSucc n =>
    have hminus : (Int.repr (.negSucc n)).toList = '-' :: (n + 1).repr.toList :=
      String.toList_append
    rw [hminus] at hlist
    cases hlist

theorem sampleEmit_injective : Function.Injective sampleEmit := by
  intro node node' h
  unfold sampleEmit at h
  cases hn : node.number with
  | some n =>
    cases hn' : node'.number with
    | some n' =>
      simp only [hn, hn'] at h
      rw [number_eq_some.mp hn, number_eq_some.mp hn', h]
    | none =>
      simp only [hn, hn'] at h
      exact absurd h (repr_ne_mark n _)
  | none =>
    cases hn' : node'.number with
    | some n' =>
      simp only [hn, hn'] at h
      exact absurd h.symm (repr_ne_mark n' _)
    | none =>
      simp only [hn, hn', String.append_right_inj] at h
      have hcode : Int.ofNat (Encodable.encode node.words) =
          Int.ofNat (Encodable.encode node'.words) := repr_inj h
      have hwords := Encodable.encode_injective (Int.ofNat.inj hcode)
      exact (words_inj node node' [] [] (by rw [hwords])).1

/-- A library that keeps the laws. -/
noncomputable def sampleLibrary : Library where
  emit := sampleEmit
  load := Function.partialInv sampleEmit
  toText := Int.repr
  ofText := sampleOfText
  load_emit := Function.partialInv_left sampleEmit_injective
  ofText_toText := sampleOfText_repr
  emit_int := by
    intro n
    rw [sampleEmit, number_eq_some.mpr rfl]

/-- `std::vector<std::vector<int>>`. -/
def nested : Ty :=
  .vector (.vector .int)

def holdsOne : nested.Val :=
  ([[1]] : List (List ℤ))

def holdsEmpty : nested.Val :=
  ([[]] : List (List ℤ))

/-- Whatever the library, the vector that holds the vector of 1 comes back as the one that
holds an empty vector. -/
theorem lexicalCast_loses_nested :
    Nonempty Library ∧
    ∀ L : Library,
      (encode L nested holdsOne).bind (decode L nested) = some holdsEmpty ∧
      holdsEmpty ≠ holdsOne := by
  refine ⟨⟨sampleLibrary⟩, ?_⟩
  intro L
  refine ⟨encode_bind_decode L nested holdsOne, ?_⟩
  intro h
  cases h

end Sample

end Config
end Civan
