import Mathlib.Tactic.Common

/-!
# YAML trees

What the configuration code sees of `YAML::Node`: null, scalars, sequences and maps.
Keys of maps are scalars.
-/

namespace Civan
namespace Config

/-- A `YAML::Node`. -/
inductive Node where
  | null
  | scalar (text : String)
  | seq (items : List Node)
  | map (entries : List (String × Node))
deriving Repr

/-- `push_back` of a string.  Another node than null or a sequence throws. -/
def Node.pushBack : Node → String → Option Node
  | .null, text => some (.seq [.scalar text])
  | .seq items, text => some (.seq (items ++ [.scalar text]))
  | _, _ => none

/-- `node[key] = value`, for a node that is null or a map. -/
def Node.setKey : Node → String → Node → Option Node
  | .null, key, value => some (.map [(key, value)])
  | .map entries, key, value =>
    if key ∈ entries.map Prod.fst then
      some (.map (entries.map fun e => if e.1 = key then (key, value) else e))
    else
      some (.map (entries ++ [(key, value)]))
  | _, _, _ => none

/-- `node[i]` for all `i` below `node.size()`; a map is asked for the key `i`.  A node
that is not there throws when it is printed. -/
def Node.items : Node → Option (List Node)
  | .null => some []
  | .scalar _ => some []
  | .seq items => some items
  | .map entries =>
    (List.range entries.length).mapM fun i =>
      (entries.find? fun e => e.1 = toString i).map Prod.snd

/-- The keys and values from `node.begin()` to `node.end()`; an element of a sequence has
no key, and asking for it throws. -/
def Node.pairs : Node → Option (List (String × Node))
  | .null => some []
  | .scalar _ => some []
  | .seq items => if items.isEmpty then some [] else none
  | .map entries => some entries

/-- The text handed to `fromString`: that of a scalar, or what `ss << node` prints. -/
def Node.text (emit : Node → String) : Node → String
  | .scalar text => text
  | node => emit node

/-- `::tolower` on every character. -/
def tolower (s : String) : String :=
  String.ofList (s.toList.map Char.toLower)

/-- No character is outside `abcdefghijklmnopqrstuvwxyz._0123456789`. -/
def validName (name : String) : Bool :=
  name.toList.all fun c => c.isLower || c.isDigit || c == '.' || c == '_'

mutual

/-- `ListAllMember`: the node under its name, and all that is below it. -/
def listAllMember (key : String) : Node → List (String × Node)
  | .map entries => if validName key then (key, .map entries) :: listMembers key entries else []
  | node => if validName key then [(key, node)] else []

/-- The loop over the entries of a map. -/
def listMembers (key : String) : List (String × Node) → List (String × Node)
  | [] => []
  | (k, node) :: rest =>
    listAllMember (if key = "" then k else key ++ "." ++ k) node ++ listMembers key rest

end

end Config
end Civan
