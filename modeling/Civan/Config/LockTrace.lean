import Civan.Lib.ScopedLock
import Civan.Config.ConfigVar
import Civan.Config.Listener

/-!
# The lock of a configuration variable

What each member function of `ConfigVar` does with `m_mutex`.  `fromString` keeps the
write lock while it calls `setValue`, and `setValue` asks for the same lock, first for
reading and then for writing.  A text that cannot be converted never gets that far.

Listeners may throw.  They act on an environment of their own and leave the variable
alone.
-/

namespace Civan
namespace Config

open ScopedLock

section Model

variable {T ε : Type}

/-- An exception; the handlers of `ConfigVar` are for `std::exception`. -/
inductive Exn where
  | std (what : String)
  | other
deriving DecidableEq, Repr

/-- A `ConfigVar` with the counter for the keys of listeners, and the world that the
listeners act on. -/
structure GuardedVar (T ε : Type) where
  val : T
  cbs : List (Key × (T → T → ε → Except Exn ε))
  key : Key
  env : ε

/-- `FromStr` and `ToStr`. -/
structure Casts (T : Type) where
  fromStr : String → Except Exn T
  toStr : T → Except Exn String

/-- `catch(std::exception& e)` with a value to return. -/
def catchStd {α : Type} (value : α) : Exn → Option α
  | .std _ => some value
  | .other => none

namespace GuardedVar

/-- Member functions. -/
abbrev Member (T ε α : Type) := Prog (GuardedVar T ε) Exn α

/-- The loop over `m_cbs`; a listener that throws ends it. -/
def notify (v : T) : List (Key × (T → T → ε → Except Exn ε)) → Member T ε Unit
  | [] => pure ()
  | cb :: cbs => do
    Prog.step fun x =>
      match cb.2 x.val v x.env with
      | .ok env => .ok ((), { x with env := env })
      | .error e => .error e
    notify v cbs

def getValue : Member T ε T :=
  withGuard .read (Prog.step fun x => .ok (x.val, x))

/-- The block of `setValue` under the read lock: `true` if the value is the old one, and
otherwise the listeners have been told. -/
def compareAndNotify [BEq T] (v : T) : Member T ε Bool := do
  let x ← Prog.step fun x => .ok (x, x)
  if v == x.val then
    pure true
  else
    notify v x.cbs
    pure false

def setValue [BEq T] (v : T) : Member T ε Unit := do
  let same ← withGuard .read (compareAndNotify v)
  if same then
    pure ()
  else
    withGuard .write (Prog.step fun x => .ok ((), { x with val := v }))

def toString (casts : Casts T) : Member T ε String :=
  Prog.tryCatch
    (withGuard .read (Prog.step fun x => (casts.toStr x.val).map fun s => (s, x)))
    (catchStd "")

/-- `FromStr()(val)` -/
def convert (casts : Casts T) (val : String) : Member T ε T :=
  Prog.step fun x => (casts.fromStr val).map fun v => (v, x)

def fromString [BEq T] (casts : Casts T) (val : String) : Member T ε Bool :=
  withGuard .write
    (Prog.tryCatch
      (do
        let v ← convert casts val
        setValue v
        pure true)
      (catchStd false))

def addListener (cb : T → T → ε → Except Exn ε) : Member T ε Key :=
  withGuard .write
    (Prog.step fun x =>
      .ok (x.key + 1,
        { x with
          cbs := x.cbs.filter (fun c => c.1 ≠ x.key) ++ [(x.key, cb)]
          key := x.key + 1 }))

end GuardedVar

/-- One call of one of these functions. -/
inductive GuardedCall (T ε : Type) where
  | fromString (val : String)
  | setValue (v : T)
  | getValue
  | toString
  | addListener (cb : T → T → ε → Except Exn ε)

/-- What the call does with the lock. -/
def GuardedCall.trace [BEq T] (casts : Casts T) (x : GuardedVar T ε) :
    GuardedCall T ε → List Event
  | .fromString val => (GuardedVar.fromString casts val x).trace
  | .setValue v => (GuardedVar.setValue v x).trace
  | .getValue => (GuardedVar.getValue x).trace
  | .toString => (GuardedVar.toString casts x).trace
  | .addListener cb => (GuardedVar.addListener cb x).trace

end Model

section Traces

variable {T ε : Type}

namespace GuardedVar

theorem quiet_notify (v : T) (cbs : List (Key × (T → T → ε → Except Exn ε))) :
    Quiet (notify v cbs) := by
  induction cbs with
  | nil => exact quiet_pure ()
  | cons cb cbs ih => exact quiet_bind (quiet_step _) fun _ => ih

theorem quiet_convert (casts : Casts T) (val : String) :
    Quiet (convert casts val : Member T ε T) :=
  quiet_step _

theorem result_convert (casts : Casts T) (val : String) (x : GuardedVar T ε) :
    (convert casts val x).result = casts.fromStr val := by
  rw [convert, Prog.step]
  cases casts.fromStr val with
  | ok v => rfl
  | error e => rfl

variable [BEq T]

theorem quiet_compareAndNotify (v : T) : Quiet (compareAndNotify v : Member T ε Bool) := by
  refine quiet_bind (quiet_step _) ?_
  intro x
  split_ifs
  · exact quiet_pure true
  · exact quiet_bind (quiet_notify v x.cbs) fun _ => quiet_pure false

/-- `setValue` reads under one guard and, if it stores, writes under another one. -/
theorem trace_setValue (v : T) (x : GuardedVar T ε) :
    (setValue v x).trace = [.request .read, .release .read] ∨
    (setValue v x).trace =
      [.request .read, .release .read, .request .write, .release .write] := by
  have hread : (withGuard .read (compareAndNotify v) x).trace =
      [.request .read, .release .read] := by
    rw [trace_withGuard, quiet_compareAndNotify]
    rfl
  cases hr : (compareAndNotify v x).result with
  | error e =>
    refine Or.inl ?_
    rw [setValue, trace_bind_error (by rw [result_withGuard, hr]), hread]
  | ok same =>
    rw [setValue, trace_bind_ok (by rw [result_withGuard, hr]), hread]
    cases same with
    | true => exact Or.inl rfl
    | false => exact Or.inr rfl

/-- A text that can be converted goes to `setValue` under the guard for writing. -/
theorem trace_fromString_of_ok {casts : Casts T} {val : String} {v : T}
    (hval : casts.fromStr val = .ok v) (x : GuardedVar T ε) :
    ∃ rest, (fromString casts val x).trace = .request .write :: .request .read :: rest := by
  let setAndReturn : Member T ε Bool := do
    setValue v
    pure true
  have hset : ∃ rest, (setAndReturn (convert casts val x).state).trace =
      .request .read :: rest := by
    obtain ⟨rest, hrest⟩ := trace_bind_prefix (setValue v) (fun _ => (pure true : Member T ε Bool))
      (convert casts val x).state
    rcases trace_setValue v (convert casts val x).state with hread | hwrite
    · rw [hread] at hrest
      exact ⟨_, hrest.symm⟩
    · rw [hwrite] at hrest
      exact ⟨_, hrest.symm⟩
  obtain ⟨rest, hrest⟩ := hset
  refine ⟨rest ++ [.release .write], ?_⟩
  rw [fromString, trace_withGuard, trace_tryCatch, trace_bind_ok (by rw [result_convert, hval]),
    quiet_convert]
  exact congrArg (fun t => .request .write :: t ++ [.release .write]) hrest

theorem trace_fromString_of_error {casts : Casts T} {val : String} {e : Exn}
    (hval : casts.fromStr val = .error e) (x : GuardedVar T ε) :
    (fromString casts val x).trace = [.request .write, .release .write] := by
  rw [fromString, trace_withGuard, trace_tryCatch,
    trace_bind_error (by rw [result_convert, hval]), quiet_convert]
  rfl

end GuardedVar

/-- `fromString` with a text that can be converted. -/
def Reenters (casts : Casts T) : GuardedCall T ε → Prop
  | .fromString val => ∃ v, casts.fromStr val = .ok v
  | _ => False

variable [BEq T]

/--
A call never requests the lock while it holds it for writing, and finds it at every release
in the mode it acquired, exactly unless it is `fromString` with a text that can be converted.
-/
theorem lockDiscipline_iff (casts : Casts T) (x : GuardedVar T ε) (c : GuardedCall T ε) :
    Disciplined (c.trace casts x) ↔ ¬ Reenters casts c := by
  cases c with
  | fromString val =>
    cases hval : casts.fromStr val with
    | ok v =>
      obtain ⟨rest, hrest⟩ := GuardedVar.trace_fromString_of_ok hval x
      refine iff_of_false ?_ (fun h => h ⟨v, hval⟩)
      rw [GuardedCall.trace, hrest, Disciplined, check, if_neg List.not_mem_nil,
        check_request_of_write List.mem_cons_self]
      intro h
      cases h
    | error e =>
      refine iff_of_true ?_ ?_
      · rw [GuardedCall.trace, GuardedVar.trace_fromString_of_error hval]
        decide
      · rintro ⟨v, hv⟩
        rw [hval] at hv
        cases hv
  | setValue v =>
    refine iff_of_true ?_ not_false
    rw [GuardedCall.trace]
    rcases GuardedVar.trace_setValue v x with htrace | htrace
    · rw [htrace]
      decide
    · rw [htrace]
      decide
  | getValue => exact iff_of_true (disciplined_withGuard (quiet_step _) x) not_false
  | toString =>
    refine iff_of_true ?_ not_false
    rw [GuardedCall.trace, GuardedVar.toString, trace_tryCatch]
    exact disciplined_withGuard (quiet_step _) x
  | addListener cb => exact iff_of_true (disciplined_withGuard (quiet_step _) x) not_false

/-- A variable of numbers that reads the text `1`. -/
def oneCasts : Casts ℕ where
  fromStr s := if s = "1" then .ok 1 else .error (.std "bad conversion")
  toStr _ := .ok "1"

/-- The write lock is held when the read lock is requested, and again when `setValue`
comes to store the value. -/
theorem fromString_requests_held_lock :
    GuardedCall.trace oneCasts ({ val := 0, cbs := [], key := 0, env := () } : GuardedVar ℕ Unit)
        (.fromString "1") =
      [.request .write, .request .read, .release .read, .request .write, .release .write,
        .release .write] ∧
    ¬ Disciplined (GuardedCall.trace oneCasts
      ({ val := 0, cbs := [], key := 0, env := () } : GuardedVar ℕ Unit) (.fromString "1")) := by
  decide

end Traces

section Values

variable {T ε : Type}

/-- The variable of the unlocked model: its listeners do not throw. -/
def ConfigVar.guarded (x : ConfigVar T ε) (key : Key) (env : ε) : GuardedVar T ε where
  val := x.val
  cbs := x.cbs.map fun cb => (BitVec.ofNat 64 cb.1, fun old new env => .ok (cb.2 old new env))
  key := key
  env := env

theorem notify_guarded (v : T) (x : GuardedVar T ε) (cbs : List (ℕ × (T → T → ε → ε))) :
    (GuardedVar.notify v
        (cbs.map fun cb =>
          ((BitVec.ofNat 64 cb.1 : Key), fun old new env => .ok (cb.2 old new env))) x).result =
      .ok () ∧
    (GuardedVar.notify v
        (cbs.map fun cb =>
          ((BitVec.ofNat 64 cb.1 : Key), fun old new env => .ok (cb.2 old new env))) x).state =
      { x with env := cbs.foldl (fun env cb => cb.2 x.val v env) x.env } := by
  induction cbs generalizing x with
  | nil => exact ⟨rfl, rfl⟩
  | cons cb cbs ih => exact ih { x with env := cb.2 x.val v x.env }

variable [BEq T]

theorem compareAndNotify_guarded (x : ConfigVar T ε) (key : Key) (v : T) (env : ε) :
    (GuardedVar.compareAndNotify v (x.guarded key env)).result = .ok (v == x.val) ∧
    (GuardedVar.compareAndNotify v (x.guarded key env)).state =
      x.guarded key (x.setValue v env).2 := by
  obtain ⟨hresult, hstate⟩ := notify_guarded v (x.guarded key env) x.cbs
  have hok : (Prog.step (fun x => .ok (x, x)) (x.guarded key env) :
      Outcome _ Exn (GuardedVar T ε)).result = .ok (x.guarded key env) := rfl
  rw [GuardedVar.compareAndNotify, result_bind_ok hok, state_bind_ok hok, ConfigVar.setValue]
  by_cases heq : v == x.val
  · have hval : (v == (x.guarded key env).val) = true := heq
    rw [if_pos heq, if_pos hval, heq]
    exact ⟨rfl, rfl⟩
  · have hval : ¬ (v == (x.guarded key env).val) = true := heq
    rw [if_neg heq, if_neg hval, Bool.eq_false_of_not_eq_true heq]
    exact ⟨result_bind_ok hresult _, (state_bind_ok hresult _).trans hstate⟩

theorem setValue_guarded (x : ConfigVar T ε) (key : Key) (v : T) (env : ε) :
    (GuardedVar.setValue v (x.guarded key env)).result = .ok () ∧
    (GuardedVar.setValue v (x.guarded key env)).state =
      (x.setValue v env).1.guarded key (x.setValue v env).2 := by
  obtain ⟨hresult, hstate⟩ := compareAndNotify_guarded x key v env
  rw [GuardedVar.setValue, result_bind_ok (by rw [result_withGuard, hresult]),
    state_bind_ok (by rw [result_withGuard, hresult]), state_withGuard, hstate, ConfigVar.setValue]
  split_ifs with heq
  · exact ⟨rfl, rfl⟩
  · exact ⟨rfl, rfl⟩

end Values

end Config
end Civan
