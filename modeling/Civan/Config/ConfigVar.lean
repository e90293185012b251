import Mathlib.Data.Fintype.Basic
import Civan.Lib.Sections

/-!
# Setting a configuration variable

`ConfigVar::setValue` compares the new value with `m_val` and calls the listeners under
the read lock, which several threads may hold; it stores the value under the write lock.
Two calls may store in another order than they notified, and then the listeners are left
with a value that the variable does not have.

Listeners act on an environment `ε` of their own.  `operator==` of the value type is
whatever the type says.
-/

namespace Civan
namespace Config

open Transition Sections

section Model

variable {T ε : Type}

/-- `ConfigVar`: the value, and the listeners in the order of their keys. -/
structure ConfigVar (T ε : Type) where
  val : T
  cbs : List (ℕ × (T → T → ε → ε))

/-- Every listener is called with the old and the new value. -/
def ConfigVar.notify (x : ConfigVar T ε) (v : T) (env : ε) : ε :=
  x.cbs.foldl (fun env cb => cb.2 x.val v env) env

variable [BEq T]

/-- `ConfigVar::setValue`, called by one thread. -/
def ConfigVar.setValue (x : ConfigVar T ε) (v : T) (env : ε) : ConfigVar T ε × ε :=
  if v == x.val then (x, env) else ({ x with val := v }, x.notify v env)

/-- The two sections of `setValue`.  None of them fails or shows anything. -/
def sections (T ε : Type) [BEq T] : Calls (ConfigVar T ε × ε) T T Unit Empty where
  first s v :=
    if v == s.1.val then
      some (.ok ((), s, none))
    else
      some (.ok ((), (s.1, s.1.notify v s.2), some v))
  second s v :=
    .ok ((), ({ s.1 with val := v }, s.2))

/-- Without another thread in the gap the sections are `setValue`. -/
theorem whole_setValue (s : ConfigVar T ε × ε) (v : T) :
    (sections T ε).whole s v = some (.ok ((), s.1.setValue v s.2)) := by
  simp only [Calls.whole, sections, ConfigVar.setValue]
  split_ifs
  · rfl
  · rfl

end Model

section Listeners

variable {T : Type}

/-- What each listener has received: the pairs of old and new value, in order. -/
abbrev Received (T : Type) := ℕ → List (T × T)

/-- A listener that takes down what it receives. -/
def record (k : ℕ) (old new : T) (r : Received T) : Received T :=
  Function.update r k (r k ++ [(old, new)])

/-- A variable with such listeners under the given keys. -/
def listening (keys : List ℕ) (val : T) : ConfigVar T (Received T) :=
  { val := val
    cbs := keys.map fun k => (k, record k) }

/-- The last new value a listener received, or the initial one. -/
def lastNew (init : T) (calls : List (T × T)) : T :=
  (calls.getLast?.map Prod.snd).getD init

theorem lastNew_record (init old new : T) (k k' : ℕ) (r : Received T) :
    lastNew init (record k' old new r k) = if k = k' then new else lastNew init (r k) := by
  rw [record]
  split_ifs with h
  · subst h
    simp [lastNew]
  · rw [Function.update_of_ne h]

theorem lastNew_foldl_record (init old new : T) (k : ℕ) (keys : List ℕ) (r : Received T) :
    lastNew init (keys.foldl (fun r k' => record k' old new r) r k) =
      if k ∈ keys then new else lastNew init (r k) := by
  induction keys generalizing r with
  | nil => simp
  | cons k' keys ih =>
    rw [List.foldl_cons, ih, lastNew_record]
    by_cases hmem : k ∈ keys
    · simp [hmem]
    · simp [hmem]

theorem lastNew_notify {keys : List ℕ} {x : ConfigVar T (Received T)} {val init : T}
    (hx : x.cbs = (listening keys val).cbs) (v : T) (r : Received T) {k : ℕ} (hk : k ∈ keys) :
    lastNew init (x.notify v r k) = v := by
  rw [ConfigVar.notify, hx]
  simp only [listening, List.foldl_map]
  rw [lastNew_foldl_record, if_pos hk]

end Listeners

section Race

variable {T τ : Type} [BEq T] [DecidableEq τ] {keys : List ℕ} {init : T}

/-- The threads that set a variable with listeners. -/
def setters : System (Threads τ (ConfigVar T (Received T) × Received T) T)
    (Sections.Label τ T) Unit :=
  Sections.system (sections T (Received T))

/-- The start: the variable has its initial value, and nobody has received anything. -/
def fresh (keys : List ℕ) (init : T) :
    Threads τ (ConfigVar T (Received T) × Received T) T :=
  Threads.start (listening keys init, fun _ => [])

/-- The threads, and the one that notified the listeners last. -/
abbrev Ordered (τ T : Type) := Threads τ (ConfigVar T (Received T) × Received T) T × Option τ

/-- A first section that leaves its thread in the gap has notified. -/
def notifier (last : Option τ)
    (s : Threads τ (ConfigVar T (Received T) × Received T) T) : Sections.Label τ T → Option τ
  | .first t _ => if (s.between t).isSome then some t else last
  | .second _ => last

/-- The same steps, with a record of who notified last. -/
def ordered : System (Ordered τ T) (Sections.Label τ T) Unit where
  step x l := (setters.step x.1 l).map fun r => (r.1, r.2, notifier x.2 r.2 l)

/-- The thread that notified last is the one that stores, or has still to store. -/
def StoresLast (x : Ordered τ T) : Sections.Label τ T → Prop
  | .first _ _ => True
  | .second t => ∀ t' ∈ x.2, t' = t ∨ (x.1.between t').isSome

instance (x : Ordered τ T) :
    DecidablePred (StoresLast x)
  | .first _ _ => .isTrue trivial
  | .second _ => inferInstanceAs (Decidable (∀ _ ∈ _, _))

/-- The listeners are those of the start.  They have the value of the thread that notified
last while it is in the gap, and the value of the variable after it. -/
structure Settling (keys : List ℕ) (init : T) (x : Ordered τ T) : Prop where
  cbs_eq : x.1.shared.1.cbs = (listening keys init).cbs
  idle : x.2 = none → ∀ t, x.1.between t = none
  told : ∀ t v, x.2 = some t → x.1.between t = some v →
    ∀ k ∈ keys, lastNew init (x.1.shared.2 k) = v
  agrees : (∀ t, x.2 = some t → x.1.between t = none) →
    ∀ k ∈ keys, lastNew init (x.1.shared.2 k) = x.1.shared.1.val

theorem Settling.step {x x' : Ordered τ T} {l : Sections.Label τ T} {o : Unit}
    (hx : Settling keys init x) (hlast : StoresLast x l)
    (hstep : ordered.step x l = some (o, x')) :
    Settling keys init x' := by
  obtain ⟨r, hr, hx'⟩ := Option.map_eq_some_iff.mp hstep
  cases hx'
  cases l with
  | first t v =>
    obtain ⟨hidle, y, p, hfirst, hs'⟩ := step_first hr
    simp only [sections] at hfirst
    split_ifs at hfirst with heq
    · -- the value is the one there already: nobody is notified
      cases hfirst
      rw [← hidle, Function.update_eq_self] at hs'
      simp only [hs', notifier, hidle, Option.isSome_none, Bool.false_eq_true, if_false]
      exact hx
    · cases hfirst
      have hself : Function.update x.1.between t (some v) t = some v :=
        Function.update_self t (some v) x.1.between
      simp only [hs', notifier, hself, Option.isSome_some, if_true]
      refine ⟨hx.cbs_eq, ?_, ?_, ?_⟩
      · intro hnone
        cases hnone
      · rintro t' v' ⟨⟩ hv' k hk
        rw [lastNew_notify hx.cbs_eq v x.1.shared.2 hk]
        exact Option.some.inj (hself.symm.trans hv')
      · intro hnone
        cases hself.symm.trans (hnone t rfl)
  | second t =>
    obtain ⟨v, y, hv, hsecond, hs'⟩ := step_second hr
    cases hsecond
    simp only [hs', notifier]
    refine ⟨hx.cbs_eq, ?_, ?_, ?_⟩
    · intro hnone
      cases hv.symm.trans (hx.idle hnone t)
    · intro t' v' ht' hv'
      by_cases hne : t' = t
      · subst hne
        cases (Function.update_self t' none x.1.between).symm.trans hv'
      · exact hx.told t' v' ht' ((Function.update_of_ne hne none x.1.between).symm.trans hv')
    · intro hnone
      obtain ⟨t', ht'⟩ : ∃ t', x.2 = some t' := by
        rw [← Option.ne_none_iff_exists']
        intro hnobody
        cases hv.symm.trans (hx.idle hnobody t)
      by_cases hne : t' = t
      · subst hne
        exact hx.told t' v ht' hv
      · -- another thread notified last, and it has still to store
        have hopen := (hlast t' ht').resolve_left hne
        have hclosed := (Function.update_of_ne hne none x.1.between).symm.trans (hnone t' ht')
        rw [hclosed] at hopen
        cases hopen

/--
In runs in which no thread stores after the one that notified last, the listeners have the
value of the variable once all calls have finished: the last notification is the last store.
-/
theorem setValue_listeners_agree {x : Ordered τ T}
    (hx : ordered.ReachableWhen StoresLast (fresh keys init, none) x)
    (hdone : ∀ t, x.1.between t = none) {k : ℕ} (hk : k ∈ keys) :
    lastNew init (x.1.shared.2 k) = x.1.shared.1.val := by
  have hstart : Settling keys init ((fresh keys init, none) : Ordered τ T) :=
    ⟨rfl, fun _ _ => rfl, fun _ _ hnone => (nomatch hnone), fun _ _ _ => rfl⟩
  have hsettling : Settling keys init x :=
    System.ReachableWhen.invariant (fun _ _ _ _ hx hlast hstep => hx.step hlast hstep) hstart hx
  exact hsettling.agrees (fun t _ => hdone t) k hk

/-- Two threads set the variable to 1 and to 2, and store in the order they notified. -/
def setInOrder : List (Sections.Label Bool ℕ) :=
  [.first false 1, .first true 2, .second false, .second true]

theorem setValue_listeners_agree_in_order :
    ∃ x : Ordered Bool ℕ,
      ordered.ReachableWhen StoresLast (fresh [7] 0, none) x ∧
      ((∀ t, x.1.between t = none) ∧ x.1.shared.1.val = 2) ∧
      lastNew 0 (x.1.shared.2 7) = x.1.shared.1.val := by
  obtain ⟨x, hx, hdone⟩ := System.exists_reachableWhen
    (M := ordered) (P := StoresLast) (fresh [7] 0, none) setInOrder
    (fun x : Ordered Bool ℕ => (∀ t, x.1.between t = none) ∧ x.1.shared.1.val = 2) (by decide)
  exact ⟨x, hx, hdone, setValue_listeners_agree hx hdone.1 (List.mem_singleton_self 7)⟩

/-- The same calls; the thread that notified last stores first. -/
def setOutOfOrder : List (Sections.Label Bool ℕ) :=
  [.first false 1, .first true 2, .second true, .second false]

/-- The listener has received 2 last, and the variable is 1. -/
theorem setValue_listeners_diverge :
    ∃ s : Threads Bool (ConfigVar ℕ (Received ℕ) × Received ℕ) ℕ,
      setters.Reachable (fresh [7] 0) s ∧
      (∀ t, s.between t = none) ∧ lastNew 0 (s.shared.2 7) = 2 ∧ s.shared.1.val = 1 := by
  obtain ⟨s, hs, hdiverge⟩ := System.exists_reachableWhen
    (M := setters) (P := fun _ _ => True) (fresh [7] 0) setOutOfOrder
    (fun s : Threads Bool (ConfigVar ℕ (Received ℕ) × Received ℕ) ℕ =>
      (∀ t, s.between t = none) ∧ lastNew 0 (s.shared.2 7) = 2 ∧ s.shared.1.val = 1)
    (by decide)
  exact ⟨s, hs.reachable, hdiverge⟩

end Race

end Config
end Civan
