import Mathlib.Tactic

/-!
# Programs with scoped locks

A program acts on a state, may throw, and requests and releases one read-write lock on
its way.  Guards are scoped: the lock is requested where a guard is made, and released
when the scope is left, by whatever way.

What a thread does with the lock is judged by what it holds itself.  It must not request
the lock while it holds it for writing, and a release must find it held in the mode that
the guard acquired.
-/

namespace Civan
namespace ScopedLock

universe u v w

inductive Mode where
  | read
  | write
deriving DecidableEq, Repr

inductive Event where
  | request (m : Mode)
  | release (m : Mode)
deriving DecidableEq, Repr

section Discipline

/-- What the thread holds after a trace; `none` if the trace breaks a rule. -/
def check : List Mode → List Event → Option (List Mode)
  | held, [] => some held
  | held, .request m :: rest => if .write ∈ held then none else check (m :: held) rest
  | held, .release m :: rest => if m ∈ held then check (held.erase m) rest else none

/-- The trace of a thread that starts without the lock and ends without it. -/
def Disciplined (trace : List Event) : Prop :=
  check [] trace = some []

instance (trace : List Event) : Decidable (Disciplined trace) :=
  inferInstanceAs (Decidable (_ = _))

theorem check_append (held : List Mode) (s t : List Event) :
    check held (s ++ t) = (check held s).bind fun held' => check held' t := by
  induction s generalizing held with
  | nil => rfl
  | cons e s ih =>
    cases e with
    | request m =>
      by_cases hw : .write ∈ held
      · simp [check, hw]
      · simp [check, hw, ih]
    | release m =>
      by_cases hm : m ∈ held
      · simp [check, hm, ih]
      · simp [check, hm]

end Discipline

section Programs

variable {σ : Type u} {ε : Type v} {α β : Type w}

structure Outcome (σ : Type u) (ε : Type v) (α : Type w) where
  trace : List Event
  result : Except ε α
  state : σ

/-- The state survives a throw, and so does the trace. -/
def Prog (σ : Type u) (ε : Type v) (α : Type w) : Type (max u v w) :=
  σ → Outcome σ ε α

namespace Prog

def pure (a : α) : Prog σ ε α := fun s =>
  { trace := []
    result := .ok a
    state := s }

def bind (x : Prog σ ε α) (f : α → Prog σ ε β) : Prog σ ε β := fun s =>
  match (x s).result with
  | .ok a =>
    { trace := (x s).trace ++ (f a (x s).state).trace
      result := (f a (x s).state).result
      state := (f a (x s).state).state }
  | .error e =>
    { trace := (x s).trace
      result := .error e
      state := (x s).state }

instance : Monad (Prog σ ε) where
  pure := pure
  bind := bind

/-- A step that touches the state and not the lock; the state stays if it throws. -/
def step (f : σ → Except ε (α × σ)) : Prog σ ε α := fun s =>
  match f s with
  | .ok (a, s') =>
    { trace := []
      result := .ok a
      state := s' }
  | .error e =>
    { trace := []
      result := .error e
      state := s }

/-- `handler` says what becomes of an exception; `none` lets it pass. -/
def tryCatch (x : Prog σ ε α) (handler : ε → Option α) : Prog σ ε α := fun s =>
  match (x s).result with
  | .ok _ => x s
  | .error e =>
    match handler e with
    | some a => { x s with result := .ok a }
    | none => x s

end Prog

/-- A guard object, and whether it has the lock. -/
structure Guard where
  mode : Mode
  locked : Bool

def Guard.new (m : Mode) : Guard × List Event :=
  (⟨m, true⟩, [.request m])

def Guard.unlock (g : Guard) : Guard × List Event :=
  if g.locked then ({ g with locked := false }, [.release g.mode]) else (g, [])

/-- A block with a guard.  The destructor of the guard unlocks. -/
def withGuard (m : Mode) (x : Prog σ ε α) : Prog σ ε α := fun s =>
  let (g, opening) := Guard.new m
  let (_, closing) := g.unlock
  { x s with trace := opening ++ (x s).trace ++ closing }

end Programs

section Rules

variable {σ : Type u} {ε : Type v} {α β : Type w} {held : List Mode} {s : σ}

@[simp] theorem trace_withGuard (m : Mode) (x : Prog σ ε α) (s : σ) :
    (withGuard m x s).trace = .request m :: (x s).trace ++ [.release m] := by
  rfl

@[simp] theorem result_withGuard (m : Mode) (x : Prog σ ε α) (s : σ) :
    (withGuard m x s).result = (x s).result := by
  rfl

@[simp] theorem state_withGuard (m : Mode) (x : Prog σ ε α) (s : σ) :
    (withGuard m x s).state = (x s).state := by
  rfl

@[simp] theorem trace_tryCatch (x : Prog σ ε α) (handler : ε → Option α) (s : σ) :
    (Prog.tryCatch x handler s).trace = (x s).trace := by
  rw [Prog.tryCatch]
  split
  · rfl
  · split
    · rfl
    · rfl

theorem trace_bind_ok {x : Prog σ ε α} {a : α} (hx : (x s).result = .ok a) (f : α → Prog σ ε β) :
    ((x >>= f) s).trace = (x s).trace ++ (f a (x s).state).trace := by
  change (Prog.bind x f s).trace = _
  rw [Prog.bind, hx]

theorem trace_bind_error {x : Prog σ ε α} {e : ε} (hx : (x s).result = .error e)
    (f : α → Prog σ ε β) :
    ((x >>= f) s).trace = (x s).trace := by
  change (Prog.bind x f s).trace = _
  rw [Prog.bind, hx]

theorem result_bind_ok {x : Prog σ ε α} {a : α} (hx : (x s).result = .ok a) (f : α → Prog σ ε β) :
    ((x >>= f) s).result = (f a (x s).state).result := by
  change (Prog.bind x f s).result = _
  rw [Prog.bind, hx]

theorem state_bind_ok {x : Prog σ ε α} {a : α} (hx : (x s).result = .ok a) (f : α → Prog σ ε β) :
    ((x >>= f) s).state = (f a (x s).state).state := by
  change (Prog.bind x f s).state = _
  rw [Prog.bind, hx]

/-- What comes second does not undo what was done first. -/
theorem trace_bind_prefix (x : Prog σ ε α) (f : α → Prog σ ε β) (s : σ) :
    (x s).trace <+: ((x >>= f) s).trace := by
  cases hr : (x s).result with
  | ok a =>
    rw [trace_bind_ok hr]
    exact List.prefix_append _ _
  | error e => rw [trace_bind_error hr]

/-- A program that leaves the lock alone. -/
def Quiet (x : Prog σ ε α) : Prop :=
  ∀ s, (x s).trace = []

theorem quiet_pure (a : α) : Quiet (pure a : Prog σ ε α) := by
  intro s
  rfl

theorem quiet_step (f : σ → Except ε (α × σ)) : Quiet (Prog.step f) := by
  intro s
  rw [Prog.step]
  split
  · rfl
  · rfl

theorem quiet_bind {x : Prog σ ε α} {f : α → Prog σ ε β} (hx : Quiet x) (hf : ∀ a, Quiet (f a)) :
    Quiet (x >>= f) := by
  intro s
  cases hr : (x s).result with
  | ok a => rw [trace_bind_ok hr, hx, hf, List.append_nil]
  | error e => rw [trace_bind_error hr, hx]

/-- A block is disciplined if no guard for writing is around it, and its body is. -/
theorem check_withGuard (hheld : .write ∉ held) {m : Mode} {t : List Event}
    (ht : check (m :: held) t = some (m :: held)) :
    check held (.request m :: t ++ [.release m]) = some held := by
  rw [List.cons_append, check, if_neg hheld, check_append, ht, Option.bind_some]
  simp [check]

/-- A block whose body leaves the lock alone. -/
theorem disciplined_withGuard {m : Mode} {x : Prog σ ε α} (hx : Quiet x) (s : σ) :
    Disciplined (withGuard m x s).trace := by
  rw [trace_withGuard, hx]
  exact check_withGuard List.not_mem_nil rfl

/-- A request under a guard for writing breaks the rule. -/
theorem check_request_of_write (hheld : .write ∈ held) (m : Mode) (t : List Event) :
    check held (.request m :: t) = none := by
  rw [check, if_pos hheld]

end Rules

end ScopedLock
end Civan
