import Mathlib
import Civan.Config.Registry

/-!
# Loading a YAML document

`LoadFromYaml` goes through the document in pre-order and hands every node with a name
that is bound to the variable of that name.  The name of a node is the dotted path of the
keys above it.  A node whose name has a character outside `[a-z0-9._]` is skipped with
all that is below it.
-/

namespace Civan
namespace Config

section Paths

mutual

/-- The nodes of a tree in pre-order, each with the keys that lead to it. -/
def Node.paths : Node → List (List String × Node)
  | .map entries => ([], .map entries) :: entryPaths entries
  | node => [([], node)]

def entryPaths : List (String × Node) → List (List String × Node)
  | [] => []
  | (k, node) :: rest => node.paths.map (fun p => (k :: p.1, p.2)) ++ entryPaths rest

end

/-- Keys below a name. -/
def dots : List String → String
  | [] => ""
  | k :: path => "." ++ k ++ dots path

/-- The dotted name of a path.  Empty keys at its front leave no dot. -/
def dottedKey : List String → String
  | [] => ""
  | k :: path => if k = "" then dottedKey path else k ++ dots path

/-- The nodes that are applied: the name is not empty, and no name on the way to it has a
character that is not allowed. -/
def Applied (path : List String) : Prop :=
  dottedKey path ≠ "" ∧ ∀ q ∈ path.inits, validName (dottedKey q) = true

instance : DecidablePred Applied :=
  fun _ => inferInstanceAs (Decidable (_ ∧ _))

end Paths

section Names

/-- The name of a node that a path leads to from a node named `key`. -/
def nameFrom (key : String) (path : List String) : String :=
  if key = "" then dottedKey path else key ++ dots path

theorem nameFrom_nil (key : String) : nameFrom key [] = key := by
  rw [nameFrom]
  split_ifs with hkey
  · exact hkey.symm
  · exact String.append_empty

theorem nameFrom_cons (key k : String) (path : List String) :
    nameFrom (if key = "" then k else key ++ "." ++ k) path = nameFrom key (k :: path) := by
  by_cases hkey : key = ""
  · rw [if_pos hkey, nameFrom, nameFrom, if_pos hkey, dottedKey]
  · have hne : key ++ "." ++ k ≠ "" := by
      rw [String.append_assoc]
      exact fun h => hkey (String.append_eq_empty_iff.mp h).1
    rw [if_neg hkey, nameFrom, nameFrom, if_neg hkey, if_neg hne, dots, String.append_assoc,
      String.append_assoc, String.append_assoc]

theorem dottedKey_append (q r : List String) :
    dottedKey (q ++ r) = nameFrom (dottedKey q) r := by
  have hdots : ∀ q r : List String, dots (q ++ r) = dots q ++ dots r := by
    intro q r
    induction q with
    | nil => exact String.empty_append.symm
    | cons k q ih =>
      rw [List.cons_append, dots, dots, ih, String.append_assoc, String.append_assoc,
        String.append_assoc]
  induction q with
  | nil => rfl
  | cons k q ih =>
    rw [List.cons_append, dottedKey, dottedKey]
    split_ifs with hk
    · exact ih
    · have hne : k ++ dots q ≠ "" := fun h => hk (String.append_eq_empty_iff.mp h).1
      rw [nameFrom, if_neg hne, hdots, String.append_assoc]

theorem validName_append (a b : String) :
    validName (a ++ b) = (validName a && validName b) := by
  rw [validName, String.toList_append, List.all_append]
  rfl

theorem validName_of_nameFrom {key : String} {path : List String}
    (h : validName (nameFrom key path) = true) :
    validName key = true := by
  rw [nameFrom] at h
  split_ifs at h with hkey
  · rw [hkey]
    rfl
  · rw [validName_append, Bool.and_eq_true] at h
    exact h.1

/-- It is enough to look at the whole name. -/
theorem applied_iff (path : List String) :
    Applied path ↔ dottedKey path ≠ "" ∧ validName (dottedKey path) = true := by
  refine and_congr_right fun _ => ⟨?_, ?_⟩
  · intro h
    exact h path ((List.mem_inits _ _).mpr (List.prefix_refl path))
  · intro h q hq
    obtain ⟨r, rfl⟩ := (List.mem_inits _ _).mp hq
    rw [dottedKey_append] at h
    exact validName_of_nameFrom h

/-- A disallowed key spoils every name below it. -/
theorem not_applied_of_key {path : List String} {k : String}
    (hk : k ∈ path) (hinvalid : validName k = false) :
    ¬ Applied path := by
  rw [applied_iff]
  rintro ⟨_, hvalid⟩
  obtain ⟨q, r, rfl⟩ := List.append_of_mem hk
  rw [dottedKey_append, ← nameFrom_cons] at hvalid
  have hkey := validName_of_nameFrom hvalid
  split_ifs at hkey with hempty
  · rw [hinvalid] at hkey
    cases hkey
  · rw [validName_append, hinvalid, Bool.and_false] at hkey
    cases hkey

theorem toLower_of_valid {c : Char}
    (hc : (c.isLower || c.isDigit || c == '.' || c == '_') = true) :
    c.toLower = c := by
  rw [Char.toLower, dif_neg]
  simp only [Char.isLower, Char.isDigit, Bool.or_eq_true, Bool.and_eq_true, decide_eq_true_eq,
    beq_iff_eq] at hc
  rcases hc with ((⟨hge, _⟩ | ⟨_, hle⟩) | rfl) | rfl
  · exact fun hupper => absurd (UInt32.le_trans hge hupper.2) (by decide)
  · exact fun hupper => absurd (UInt32.le_trans hupper.1 hle) (by decide)
  · decide
  · decide

theorem tolower_of_valid {name : String} (h : validName name = true) : tolower name = name := by
  rw [validName, List.all_eq_true] at h
  have hmap : name.toList.map Char.toLower = name.toList := by
    rw [List.map_congr_left fun c hc => toLower_of_valid (h c hc), List.map_id']
  rw [tolower, hmap, String.ofList_toList]

end Names

section Walk

/-- Below an invalid name all names are invalid. -/
theorem filter_nameFrom_eq_nil {key : String} (hkey : ¬ validName key = true)
    (ps : List (List String × Node)) :
    (ps.filter fun p => validName (nameFrom key p.1)) = [] := by
  rw [List.filter_eq_nil_iff]
  intro p _ hp
  exact hkey (validName_of_nameFrom hp)

theorem leaf_eq (key : String) (node : Node) :
    (if validName key then [(key, node)] else []) =
      ([(([] : List String), node)].filter fun p => validName (nameFrom key p.1)).map
        fun p => (nameFrom key p.1, p.2) := by
  by_cases hkey : validName key = true
  · simp [hkey, nameFrom_nil]
  · simp [hkey, nameFrom_nil]

mutual

theorem listAllMember_eq (key : String) :
    ∀ node : Node, listAllMember key node =
      (node.paths.filter fun p => validName (nameFrom key p.1)).map
        fun p => (nameFrom key p.1, p.2)
  | .null => leaf_eq key .null
  | .scalar text => leaf_eq key (.scalar text)
  | .seq items => leaf_eq key (.seq items)
  | .map entries => by
    by_cases hkey : validName key = true
    · have hroot : validName (nameFrom key []) = true := by rw [nameFrom_nil, hkey]
      rw [listAllMember, if_pos hkey, Node.paths, List.filter_cons, if_pos hroot, List.map_cons,
        nameFrom_nil, listMembers_eq key entries]
    · rw [listAllMember, if_neg hkey, filter_nameFrom_eq_nil hkey, List.map_nil]

theorem listMembers_eq (key : String) :
    ∀ entries : List (String × Node), listMembers key entries =
      ((entryPaths entries).filter fun p => validName (nameFrom key p.1)).map
        fun p => (nameFrom key p.1, p.2)
  | [] => rfl
  | (k, node) :: rest => by
    rw [listMembers, entryPaths, listAllMember_eq _ node, listMembers_eq key rest,
      List.filter_append, List.map_append, List.filter_map, List.map_map]
    simp only [nameFrom_cons]
    rfl

end

end Walk

section Load

variable {Ty : Type} {Val : Ty → Type}

/-- A variable after `fromString` with each of the texts.  What `fromString` makes of the
value depends on the type, the old value and the text. -/
def Var.feed (fromString : (T : Ty) → Val T → String → Val T) (v : Var Val)
    (texts : List String) : Var Val :=
  { v with val := texts.foldl (fromString v.type) v.val }

/-- `fromString` on the variable that was made as number `i`. -/
def Registry.fromString (s : Registry Val)
    (fromString : (T : Ty) → Val T → String → Val T) (i : ℕ) (text : String) : Registry Val :=
  { s with
    vars := s.vars.modify i fun v => v.feed fromString [text]
    bound := by
      intro name j hj
      rw [List.length_modify]
      exact s.bound name j hj }

/-- The registry after `LoadFromYaml`. -/
def Registry.afterLoad (s : Registry Val) (fromString : (T : Ty) → Val T → String → Val T)
    (emit : Node → String) (root : Node) : Registry Val :=
  (s.loadFromYaml emit root).foldl (fun s u => s.fromString fromString u.var u.text) s

/-- A run of updates hands each variable its own texts, in order. -/
theorem foldl_fromString (fromString : (T : Ty) → Val T → String → Val T)
    (us : List Update) (s : Registry Val) :
    (us.foldl (fun s u => s.fromString fromString u.var u.text) s).datas = s.datas ∧
    ∀ i : ℕ, (us.foldl (fun s u => s.fromString fromString u.var u.text) s).vars[i]? =
      (s.vars[i]?).map fun v =>
        v.feed fromString ((us.filter fun u => u.var = i).map Update.text) := by
  induction us generalizing s with
  | nil =>
    refine ⟨rfl, fun i => ?_⟩
    simp [Var.feed]
  | cons u us ih =>
    obtain ⟨hdatas, hvars⟩ := ih (s.fromString fromString u.var u.text)
    refine ⟨hdatas, fun i => ?_⟩
    rw [List.foldl_cons, hvars i, Registry.fromString]
    by_cases hi : u.var = i
    · simp [hi, Var.feed, Function.comp_def]
    · simp [hi]

/-- The calls of `LoadFromYaml`, node by node. -/
theorem loadFromYaml_eq (s : Registry Val) (emit : Node → String) (root : Node) :
    s.loadFromYaml emit root =
      root.paths.filterMap fun p =>
        if Applied p.1 then
          (s.datas (dottedKey p.1)).map fun var => ⟨dottedKey p.1, var, p.2.text emit⟩
        else
          none := by
  have hnames : ∀ path, nameFrom "" path = dottedKey path := fun _ => rfl
  rw [Registry.loadFromYaml, listAllMember_eq, List.filterMap_map, List.filterMap_filter]
  refine List.filterMap_congr ?_
  intro p _
  simp only [hnames, Function.comp_apply, applied_iff, Registry.lookupBase]
  by_cases hvalid : validName (dottedKey p.1) = true
  · rw [if_pos hvalid, tolower_of_valid hvalid]
    by_cases hempty : dottedKey p.1 = ""
    · simp [hempty]
    · simp [hempty, hvalid]
  · rw [if_neg hvalid, if_neg fun h => hvalid h.2]

/--
`LoadFromYaml` calls `fromString` in pre-order of the tree, once for every node whose
dotted name is not empty, has allowed characters only on every prefix of its path, and is
bound; the text is that of a scalar, or the emission of the node.  Nothing below a key with
another character is applied.  Each variable receives the texts of its own calls in this
order, so that one without a call keeps its value, and the bindings stay.
-/
theorem loadFromYaml_touches_named
    (s : Registry Val) (fromString : (T : Ty) → Val T → String → Val T)
    (emit : Node → String) (root : Node) :
    (s.loadFromYaml emit root =
      root.paths.filterMap fun p =>
        if Applied p.1 then
          (s.datas (dottedKey p.1)).map fun var => ⟨dottedKey p.1, var, p.2.text emit⟩
        else
          none) ∧
    (∀ path : List String, (∃ k ∈ path, validName k = false) → ¬ Applied path) ∧
    (s.afterLoad fromString emit root).datas = s.datas ∧
    (∀ i : ℕ, (s.afterLoad fromString emit root).vars[i]? =
      (s.vars[i]?).map fun v =>
        v.feed fromString
          (((s.loadFromYaml emit root).filter fun u => u.var = i).map Update.text)) ∧
    ∀ i : ℕ, (∀ u ∈ s.loadFromYaml emit root, u.var ≠ i) →
      (s.afterLoad fromString emit root).vars[i]? = s.vars[i]? := by
  obtain ⟨hdatas, hvars⟩ := foldl_fromString fromString (s.loadFromYaml emit root) s
  refine ⟨loadFromYaml_eq s emit root, ?_, hdatas, hvars, ?_⟩
  · rintro path ⟨k, hk, hinvalid⟩
    exact not_applied_of_key hk hinvalid
  · intro i hi
    have hnone : ((s.loadFromYaml emit root).filter fun u => u.var = i) = [] := by
      simpa [List.filter_eq_nil_iff] using hi
    have hvar := hvars i
    rw [hnone] at hvar
    rw [Registry.afterLoad, hvar]
    simp [Var.feed]

end Load

end Config
end Civan
