import Civan.Lib.Transition
import Civan.Config.Yaml

/-!
# The registry of configuration variables

`Config::Lookup<T>(name)` returns a null pointer for a name that is not bound, and for
one that is bound to a variable of another type.  The overload with a default value
takes both for "not bound": it makes a variable and stores it under the name, and the
holders of the old one no longer hear of a reload.

Value types are an arbitrary type `Ty` of codes with their values.  A variable is known
by the order in which it was made.
-/

namespace Civan
namespace Config

open Transition

section Model

variable {Ty : Type}

/-- A `ConfigVar<T>`. -/
structure Var (Val : Ty → Type) where
  name : String
  description : String
  type : Ty
  val : Val type

/-- The constructor of `ConfigVar<T>`. -/
def Var.new {Val : Ty → Type} (T : Ty) (name : String) (default : Val T)
    (description : String) : Var Val :=
  { name := tolower name
    description := description
    type := T
    val := default }

/-- `GetDatas()`, with all variables made so far. -/
structure Registry (Val : Ty → Type) where
  vars : List (Var Val)
  datas : String → Option ℕ
  bound : ∀ name i, datas name = some i → i < vars.length

variable {Val : Ty → Type}

/-- Before the first call. -/
def Registry.empty : Registry Val :=
  { vars := []
    datas := fun _ => none
    bound := by simp }

/-- `GetDatas()[name] = v` for a new variable. -/
def Registry.insert (s : Registry Val) (name : String) (v : Var Val) : Registry Val :=
  { vars := s.vars ++ [v]
    datas := Function.update s.datas name (some s.vars.length)
    bound := by
      intro name' i hi
      rw [List.length_append, List.length_singleton]
      by_cases heq : name' = name
      · subst heq
        rw [Function.update_self, Option.some.injEq] at hi
        omega
      · rw [Function.update_of_ne heq] at hi
        exact Nat.lt_succ_of_lt (s.bound name' i hi) }

/-- `std::invalid_argument(name)`. -/
structure InvalidArgument where
  name : String
deriving DecidableEq, Repr

variable [DecidableEq Ty]

/-- `Config::Lookup<T>(name)`; `none` is a null pointer. -/
def Registry.lookup (s : Registry Val) (T : Ty) (name : String) :
    Except InvalidArgument (Option ℕ) :=
  match s.datas name with
  | some i => if (s.vars[i]?).any (fun v => v.type = T) then .ok (some i) else .ok none
  | none => if validName name then .ok none else .error ⟨name⟩

/-- `Config::Lookup<T>(name, default_value, description)`. -/
def Registry.lookupDefault
    (s : Registry Val) (T : Ty) (name : String) (default : Val T) (description : String) :
    Except InvalidArgument (ℕ × Registry Val) :=
  match s.lookup T name with
  | .error e => .error e
  | .ok (some tmp) => .ok (tmp, s)
  | .ok none => .ok (s.vars.length, s.insert name (Var.new T name default description))

/-- `Config::LookupBase`. -/
def Registry.lookupBase (s : Registry Val) (name : String) : Option ℕ :=
  s.datas name

/-- A call `var->fromString(text)` of `LoadFromYaml`, and the key it is made for. -/
structure Update where
  key : String
  var : ℕ
  text : String
deriving DecidableEq, Repr

/-- The calls that `LoadFromYaml` makes. -/
def Registry.loadFromYaml (s : Registry Val) (emit : Node → String) (root : Node) :
    List Update :=
  (listAllMember "" root).filterMap fun i =>
    if i.1 = "" then
      none
    else
      (s.lookupBase (tolower i.1)).map fun var => ⟨tolower i.1, var, i.2.text emit⟩

/-- The two overloads of `Lookup`. -/
inductive LookupCall (Val : Ty → Type) where
  | lookup (T : Ty) (name : String)
  | lookupDefault (T : Ty) (name : String) (default : Val T) (description : String)

def LookupCall.name : LookupCall Val → String
  | .lookup _ name => name
  | .lookupDefault _ name _ _ => name

/-- What a call returns, or throws. -/
abbrev LookupResult := Except InvalidArgument (Option ℕ)

/-- One call; an exception leaves the registry as it is. -/
def Registry.call (s : Registry Val) : LookupCall Val → LookupResult × Registry Val
  | .lookup T name => (s.lookup T name, s)
  | .lookupDefault T name default description =>
    match s.lookupDefault T name default description with
    | .error e => (.error e, s)
    | .ok (v, s') => (.ok (some v), s')

/-- Sequences of calls. -/
def lookups : System (Registry Val) (LookupCall Val) LookupResult where
  step s c := some (s.call c)

end Model

section Bindings

variable {Ty : Type} {Val : Ty → Type}

/-- The type of the variable that a name is bound to. -/
def Registry.typeOf (s : Registry Val) (name : String) : Option Ty :=
  (s.datas name).bind fun i => (s.vars[i]?).map Var.type

variable {s s' t : Registry Val} {c : LookupCall Val} {name : String} {i : ℕ}

theorem typeOf_of_bound (hi : s.datas name = some i) :
    ∃ v, s.vars[i]? = some v ∧ s.typeOf name = some v.type := by
  have hv := List.getElem?_eq_getElem (s.bound name i hi)
  refine ⟨_, hv, ?_⟩
  rw [Registry.typeOf, hi, Option.bind_some, hv]
  rfl

theorem insert_datas (v : Var Val) :
    (s.insert name v).datas = Function.update s.datas name (some s.vars.length) := by
  rfl

/-- What `LoadFromYaml` does for one name. -/
theorem loadFromYaml_filter (hi : s.datas name = some i) (emit : Node → String) (root : Node) :
    (s.loadFromYaml emit root).filter (fun u => u.key = name) =
      ((listAllMember "" root).filter (fun m => m.1 ≠ "" ∧ tolower m.1 = name)).map
        (fun m => ⟨name, i, m.2.text emit⟩) := by
  rw [Registry.loadFromYaml]
  induction listAllMember "" root with
  | nil => rfl
  | cons m rest ih =>
    by_cases hempty : m.1 = ""
    · simp [hempty, ih]
    · cases hd : s.lookupBase (tolower m.1) with
      | none =>
        have hne : tolower m.1 ≠ name := by
          rintro rfl
          rw [Registry.lookupBase, hi] at hd
          cases hd
        simp [hempty, hd, hne, ih]
      | some j =>
        by_cases heq : tolower m.1 = name
        · have hji : j = i := by
            rw [Registry.lookupBase, heq, hi] at hd
            exact (Option.some.inj hd).symm
          rw [heq] at hd
          simp [hempty, heq, hd, hji, ih]
        · simp [hempty, hd, heq, ih]

variable [DecidableEq Ty] {T : Ty}

/-- A lookup with the type of the name finds the variable, one with another type does not. -/
theorem lookup_of_bound (hi : s.datas name = some i) :
    s.lookup T name = .ok (if s.typeOf name = some T then some i else none) := by
  obtain ⟨v, hv, htype⟩ := typeOf_of_bound hi
  simp only [Registry.lookup, hi, hv, htype]
  by_cases heq : v.type = T
  · simp [heq]
  · simp [heq]

theorem lookup_of_unbound (h : s.datas name = none) :
    s.lookup T name = if validName name then .ok none else .error ⟨name⟩ := by
  simp only [Registry.lookup, h]

/-- A call with a default value is not made for a name bound with another type. -/
def SameType (s : Registry Val) : LookupCall Val → Prop
  | .lookup _ _ => True
  | .lookupDefault T name _ _ => ∀ T' ∈ s.typeOf name, T' = T

instance (s : Registry Val) : DecidablePred (SameType s)
  | .lookup _ _ => .isTrue trivial
  | .lookupDefault _ _ _ _ => inferInstanceAs (Decidable (∀ _ ∈ _, _))

theorem call_lookupDefault_of_unbound (h : s.datas name = none)
    (default : Val T) (description : String) :
    s.call (.lookupDefault T name default description) =
      if validName name then
        (.ok (some s.vars.length), s.insert name (Var.new T name default description))
      else
        (.error ⟨name⟩, s) := by
  simp only [Registry.call, Registry.lookupDefault, lookup_of_unbound h]
  by_cases hvalid : validName name
  · simp [hvalid]
  · simp [hvalid]

theorem call_lookupDefault_of_bound (h : s.datas name = some i)
    (default : Val T) (description : String) :
    s.call (.lookupDefault T name default description) =
      if s.typeOf name = some T then
        (.ok (some i), s)
      else
        (.ok (some s.vars.length), s.insert name (Var.new T name default description)) := by
  simp only [Registry.call, Registry.lookupDefault, lookup_of_bound h]
  by_cases htype : s.typeOf name = some T
  · simp [htype]
  · simp [htype]

theorem call_returns_bound (h : s.call c = (.ok (some i), s')) : s'.datas c.name = some i := by
  cases c with
  | lookup T name =>
    obtain ⟨hret, rfl⟩ := Prod.mk.inj h
    cases hd : s.datas name with
    | none =>
      rw [lookup_of_unbound hd] at hret
      split_ifs at hret
      cases hret
    | some j =>
      rw [lookup_of_bound hd] at hret
      split_ifs at hret
      · cases hret
        exact hd
      · cases hret
  | lookupDefault T name default description =>
    cases hd : s.datas name with
    | none =>
      rw [call_lookupDefault_of_unbound hd] at h
      split_ifs at h
      · cases h
        rw [insert_datas]
        exact Function.update_self ..
      · cases h
    | some j =>
      rw [call_lookupDefault_of_bound hd] at h
      split_ifs at h
      · cases h
        exact hd
      · cases h
        rw [insert_datas]
        exact Function.update_self ..

/-- A call keeps all bindings exactly if it does not bring a default value of another
type to a bound name. -/
theorem call_keeps_bindings_iff (s : Registry Val) (c : LookupCall Val) :
    (∀ name i, s.datas name = some i → (s.call c).2.datas name = some i) ↔ SameType s c := by
  cases c with
  | lookup T name => exact iff_of_true (fun _ _ h => h) trivial
  | lookupDefault T name default description =>
    cases hd : s.datas name with
    | none =>
      refine iff_of_true ?_ ?_
      · intro name' i hi
        have hne : name' ≠ name := by
          rintro rfl
          rw [hd] at hi
          cases hi
        rw [call_lookupDefault_of_unbound hd]
        split_ifs
        · rw [insert_datas, Function.update_of_ne hne]
          exact hi
        · exact hi
      · intro T' hT'
        rw [Registry.typeOf, hd] at hT'
        cases hT'
    | some j =>
      obtain ⟨v, hv, htype⟩ := typeOf_of_bound hd
      rw [call_lookupDefault_of_bound hd]
      by_cases heq : s.typeOf name = some T
      · rw [if_pos heq]
        refine iff_of_true (fun _ _ h => h) ?_
        intro T' hT'
        exact Option.some.inj (hT'.symm.trans heq)
      · rw [if_neg heq]
        refine iff_of_false ?_ ?_
        · intro hkeeps
          have hnew := hkeeps name j hd
          rw [insert_datas, Function.update_self, Option.some.injEq] at hnew
          exact absurd (s.bound name j hd) (by omega)
        · intro hsame
          exact heq (by rw [htype, hsame v.type htype])

/-- Bindings last along runs of such calls. -/
theorem reachable_keeps_binding (ht : lookups.ReachableWhen SameType s t)
    (hi : s.datas name = some i) :
    t.datas name = some i := by
  refine System.ReachableWhen.invariant (I := fun u => u.datas name = some i) ?_ hi ht
  intro u c o u' hu hsame hstep
  have hu' : u' = (u.call c).2 := congrArg Prod.snd (Option.some.inj hstep).symm
  rw [hu']
  exact (call_keeps_bindings_iff u c).mpr hsame name i hu

/--
Let a call return a variable.  After any further calls, none of which brings a default
value of another type to a bound name, the name is still bound to it; a lookup with
another type returns a null pointer and changes nothing; and everything that
`LoadFromYaml` finds under the name goes to this variable.
-/
theorem lookup_binds_once (hcall : lookups.step s c = some (.ok (some i), s'))
    (ht : lookups.ReachableWhen SameType s' t) :
    t.datas c.name = some i ∧
    (∀ T, t.typeOf c.name ≠ some T → lookups.step t (.lookup T c.name) = some (.ok none, t)) ∧
    ∀ emit root,
      (t.loadFromYaml emit root).filter (fun u => u.key = c.name) =
        ((listAllMember "" root).filter (fun m => m.1 ≠ "" ∧ tolower m.1 = c.name)).map
          (fun m => ⟨c.name, i, m.2.text emit⟩) := by
  have hs' := call_returns_bound (Option.some.inj hcall)
  have hi := reachable_keeps_binding ht hs'
  refine ⟨hi, ?_, loadFromYaml_filter hi⟩
  intro T htype
  simp only [lookups, Registry.call, lookup_of_bound hi, if_neg htype]

end Bindings

section Samples

/-- Two value types. -/
inductive Sample where
  | int
  | string
deriving DecidableEq

def Sample.Val : Sample → Type
  | .int => Int
  | .string => String

/-- `Lookup<int>("a.b", 1)`. -/
def bindInt : LookupCall Sample.Val :=
  .lookupDefault .int "a.b" (1 : Int) ""

/-- `Lookup<std::string>("a.b", "x")`. -/
def bindString : LookupCall Sample.Val :=
  .lookupDefault .string "a.b" "x" ""

/-- The document `a: {b: 5}`. -/
def setsAB : Node :=
  .map [("a", .map [("b", .scalar "5")])]

theorem lookup_binds_once_reload :
    ∃ s t : Registry Sample.Val,
      lookups.step Registry.empty bindInt = some (.ok (some 0), s) ∧
      lookups.ReachableWhen SameType s t ∧
      t.datas "a.b" = some 0 := by
  have hret : (Registry.empty.call bindInt).1 = .ok (some 0) := by decide
  have hstep : lookups.step Registry.empty bindInt =
      some (.ok (some 0), (Registry.empty.call bindInt).2) := by
    rw [← hret]
    rfl
  obtain ⟨t, ht, _⟩ := System.exists_reachableWhen
    (M := lookups) (P := SameType) (Registry.empty.call bindInt).2
    [.lookup .string "a.b", bindInt, .lookupDefault .string "c" "y" ""]
    (fun t => t.datas "c" = some 1) (by decide)
  exact ⟨_, t, hstep, ht, (lookup_binds_once hstep ht).1⟩

/-- The second type takes the name over: the first caller holds variable 0, and the
document goes to variable 1. -/
theorem lookup_rebinds :
    ∃ s t : Registry Sample.Val,
      lookups.step Registry.empty bindInt = some (.ok (some 0), s) ∧
      lookups.step s bindString = some (.ok (some 1), t) ∧
      s.datas "a.b" = some 0 ∧ t.datas "a.b" = some 1 ∧
      t.loadFromYaml (fun _ => "") setsAB = [⟨"a.b", 1, "5"⟩] := by
  have hint : (Registry.empty.call bindInt).1 = .ok (some 0) := by decide
  have hstring : ((Registry.empty.call bindInt).2.call bindString).1 = .ok (some 1) := by decide
  refine ⟨(Registry.empty.call bindInt).2, ((Registry.empty.call bindInt).2.call bindString).2,
    ?_, ?_, by decide, by decide, by decide⟩
  · rw [← hint]
    rfl
  · rw [← hstring]
    rfl

end Samples

end Config
end Civan
