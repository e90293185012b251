import Civan.Lib.KeyHistory
import Civan.Http.Request

/-!
# Routing requests to servlets

`ServletDispatch` keeps servlets under exact paths in `m_datas` and under patterns in
the vector `m_globs`.  Adding a pattern again moves it to the end of the vector.  A
request goes to the servlet of its path, else to that of the first pattern that
matches, else to the default.

What `fnmatch` accepts is a parameter.  The history of the calls decides the route:
each call is one edit of the paths or of the patterns.
-/

namespace Civan
namespace Http

open KeyHistory

/-- A `Servlet::ptr`: an object of the caller, a `FunctionServlet` made for a callback,
or the `NotFoundServlet` of the constructor. -/
inductive Servlet (σ : Type) (κ : Type) where
  | object (slt : σ)
  | function (cb : κ)
  | notFound
deriving DecidableEq, Repr

section Model

variable {σ κ : Type}

/-- The data members of `ServletDispatch`. -/
structure ServletDispatch (σ κ : Type) where
  datas : List UInt8 → Option (Servlet σ κ)
  globs : List (List UInt8 × Servlet σ κ)
  dflt : Servlet σ κ

namespace ServletDispatch

/-- `ServletDispatch()`. -/
def new : ServletDispatch σ κ where
  datas := fun _ => none
  globs := []
  dflt := .notFound

/-- `addServlet(uri, slt)`. -/
def addServlet (d : ServletDispatch σ κ) (uri : List UInt8) (slt : Servlet σ κ) :
    ServletDispatch σ κ :=
  { d with datas := Function.update d.datas uri (some slt) }

/-- `addServlet(uri, cb)`. -/
def addServletCb (d : ServletDispatch σ κ) (uri : List UInt8) (cb : κ) :
    ServletDispatch σ κ :=
  { d with datas := Function.update d.datas uri (some (.function cb)) }

/-- The loop of `addGlobServlet` and `delGlobServlet`: it stops at the first hit. -/
def eraseGlob (uri : List UInt8) (globs : List (List UInt8 × Servlet σ κ)) :
    List (List UInt8 × Servlet σ κ) :=
  globs.eraseP fun it => it.1 = uri

/-- `addGlobServlet(uri, slt)`. -/
def addGlobServlet (d : ServletDispatch σ κ) (uri : List UInt8) (slt : Servlet σ κ) :
    ServletDispatch σ κ :=
  { d with globs := eraseGlob uri d.globs ++ [(uri, slt)] }

/-- `addGlobServlet(uri, cb)`. -/
def addGlobServletCb (d : ServletDispatch σ κ) (uri : List UInt8) (cb : κ) :
    ServletDispatch σ κ :=
  d.addGlobServlet uri (.function cb)

def delServlet (d : ServletDispatch σ κ) (uri : List UInt8) : ServletDispatch σ κ :=
  { d with datas := Function.update d.datas uri none }

def delGlobServlet (d : ServletDispatch σ κ) (uri : List UInt8) : ServletDispatch σ κ :=
  { d with globs := eraseGlob uri d.globs }

/-- `getMatchedServlet`; `fnmatch pattern uri` stands for `fnmatch(...) == 0`. -/
def getMatchedServlet (fnmatch : List UInt8 → List UInt8 → Bool)
    (d : ServletDispatch σ κ) (uri : List UInt8) : Servlet σ κ :=
  match d.datas uri with
  | some slt => slt
  | none =>
    match d.globs.find? (fun it => fnmatch it.1 uri) with
    | some it => it.2
    | none => d.dflt

end ServletDispatch

/-- The calls that change the routes. -/
inductive RouteCall (σ κ : Type) where
  | addServlet (uri : List UInt8) (slt : σ)
  | addServletCb (uri : List UInt8) (cb : κ)
  | addGlobServlet (uri : List UInt8) (slt : σ)
  | addGlobServletCb (uri : List UInt8) (cb : κ)
  | delServlet (uri : List UInt8)
  | delGlobServlet (uri : List UInt8)

/-- One call. -/
def ServletDispatch.call (d : ServletDispatch σ κ) : RouteCall σ κ → ServletDispatch σ κ
  | .addServlet uri slt => d.addServlet uri (.object slt)
  | .addServletCb uri cb => d.addServletCb uri cb
  | .addGlobServlet uri slt => d.addGlobServlet uri (.object slt)
  | .addGlobServletCb uri cb => d.addGlobServletCb uri cb
  | .delServlet uri => d.delServlet uri
  | .delGlobServlet uri => d.delGlobServlet uri

/-- The calls one after the other, from the constructor on. -/
def ServletDispatch.after (calls : List (RouteCall σ κ)) : ServletDispatch σ κ :=
  calls.foldl ServletDispatch.call .new

end Model

section Routes

variable {σ κ : Type}

/-- What a call does to the paths. -/
def RouteCall.onDatas : RouteCall σ κ → Edit (List UInt8) (Servlet σ κ)
  | .addServlet uri slt => .put uri (.object slt)
  | .addServletCb uri cb => .put uri (.function cb)
  | .delServlet uri => .erase uri
  | _ => .skip

/-- What a call does to the patterns. -/
def RouteCall.onGlobs : RouteCall σ κ → Edit (List UInt8) (Servlet σ κ)
  | .addGlobServlet uri slt => .put uri (.object slt)
  | .addGlobServletCb uri cb => .put uri (.function cb)
  | .delGlobServlet uri => .erase uri
  | _ => .skip

/-- Call number `i` added `slt` under exactly `uri`, and no later call added or deleted
something there. -/
def LiveServlet
    (calls : List (RouteCall σ κ)) (uri : List UInt8) (slt : Servlet σ κ) (i : ℕ) : Prop :=
  Live (calls.map RouteCall.onDatas) uri slt i

/-- Call number `i` added `slt` under the pattern `uri`, and no later call added or
deleted that pattern. -/
def LiveGlob
    (calls : List (RouteCall σ κ)) (uri : List UInt8) (slt : Servlet σ κ) (i : ℕ) : Prop :=
  Live (calls.map RouteCall.onGlobs) uri slt i

theorem call_datas (d : ServletDispatch σ κ) (c : RouteCall σ κ) :
    (d.call c).datas = c.onDatas.onMap d.datas := by
  cases c <;> rfl

theorem call_globs (d : ServletDispatch σ κ) (c : RouteCall σ κ) :
    (d.call c).globs = c.onGlobs.onList d.globs := by
  cases c <;> rfl

theorem after_append_singleton (calls : List (RouteCall σ κ)) (c : RouteCall σ κ) :
    ServletDispatch.after (calls ++ [c]) = (ServletDispatch.after calls).call c := by
  simp [ServletDispatch.after]

theorem after_follows (calls : List (RouteCall σ κ)) :
    Current (calls.map RouteCall.onDatas) (ServletDispatch.after calls).datas ∧
      InOrder (calls.map RouteCall.onGlobs) (ServletDispatch.after calls).globs := by
  induction calls using List.reverseRecOn with
  | nil => exact ⟨current_nil, inOrder_nil⟩
  | append_singleton calls c ih =>
    obtain ⟨hdatas, hglobs⟩ := ih
    rw [after_append_singleton, call_datas, call_globs, List.map_append, List.map_append]
    exact ⟨hdatas.append_singleton _, hglobs.append_singleton _⟩

/--
After any calls no pattern has two entries, and a request goes to the servlet added last
under exactly its path, if it is still there; else to the servlet of the matching pattern
whose last addition is the earliest, among the patterns still there; else to the default.
-/
theorem getMatchedServlet_routes (fnmatch : List UInt8 → List UInt8 → Bool)
    (calls : List (RouteCall σ κ)) (uri : List UInt8) :
    let d := ServletDispatch.after calls
    let slt := d.getMatchedServlet fnmatch uri
    (d.globs.map Prod.fst).Nodup ∧
      ((∃ i, LiveServlet calls uri slt i) ∨
        (∀ slt' i, ¬ LiveServlet calls uri slt' i) ∧
          ((∃ pattern i, LiveGlob calls pattern slt i ∧ fnmatch pattern uri = true ∧
              ∀ pattern' slt' j, LiveGlob calls pattern' slt' j →
                fnmatch pattern' uri = true → i ≤ j) ∨
            (∀ pattern slt' i, LiveGlob calls pattern slt' i → fnmatch pattern uri = false) ∧
              slt = d.dflt)) := by
  obtain ⟨hdatas, hglobs⟩ := after_follows calls
  refine ⟨hglobs.nodup_keys, ?_⟩
  cases hdata : (ServletDispatch.after calls).datas uri with
  | some slt =>
    simp only [ServletDispatch.getMatchedServlet, hdata]
    exact Or.inl ((hdatas uri slt).mp hdata)
  | none =>
    have hnot : ∀ slt' i, ¬ LiveServlet calls uri slt' i := by
      intro slt' i hlive
      have hsome := (hdatas uri slt').mpr ⟨i, hlive⟩
      rw [hdata] at hsome
      cases hsome
    simp only [ServletDispatch.getMatchedServlet, hdata]
    refine Or.inr ⟨hnot, ?_⟩
    cases hglob : (ServletDispatch.after calls).globs.find? (fun it => fnmatch it.1 uri) with
    | some it =>
      obtain ⟨hmatch, i, hlive, hfirst⟩ :=
        hglobs.find?_earliest (p := fun pattern => fnmatch pattern uri) hglob
      exact Or.inl ⟨it.1, i, hlive, hmatch, hfirst⟩
    | none =>
      have hnone := hglobs.find?_none (p := fun pattern => fnmatch pattern uri) hglob
      exact Or.inr ⟨hnone, rfl⟩

/-- A pattern that is added again gives way to the others. -/
example :
    let calls : List (RouteCall ℕ ℕ) :=
      [.addGlobServlet [42] 1, .addGlobServletCb [63] 2, .addGlobServlet [42] 3]
    (ServletDispatch.after calls).getMatchedServlet (fun _ _ => true) [47] = .function 2 := by
  decide

end Routes

end Http
end Civan
