import Mathlib.Computability.Language
import Mathlib.Tactic

/-!
# Grammars with embedded actions

A regular grammar whose parts carry actions: `enter a g` performs `a` at the first
symbol of `g`, `leave a g` at the symbol after its last.  A generator of parsers compiles
such a grammar to a machine that follows all readings of the input at once, and performs
at each symbol the actions of all of them, each action once.

A reading is a *thread*, the list of what it has still to read; a state of the machine is
the list of the threads that are alive.  The words accepted are those of the language of
the grammar (`accepting_read_iff`).  Which actions are performed depends on all threads
together.  The rules for that are `silent_read`, while the threads are inside parts of
the grammar without actions, and `cross`, when a symbol takes threads out of them.
-/

namespace Civan
namespace ActionGrammar

universe u v

/-- Grammars over symbols `B` with actions `A`. -/
inductive Grammar (B : Type u) (A : Type v) where
  | eps
  | chr (p : B → Bool)
  | seq (g h : Grammar B A)
  | alt (g h : Grammar B A)
  | star (g : Grammar B A)
  | enter (a : A) (g : Grammar B A)
  | leave (a : A) (g : Grammar B A)

/-- What a reading has still to read. -/
abbrev Thread (B : Type u) (A : Type v) : Type (max u v) :=
  List (Grammar B A)

section Machine

variable {B : Type u} {A : Type v}

/-- Does the grammar have the empty word? -/
def Grammar.nullable : Grammar B A → Bool
  | .eps => true
  | .chr _ => false
  | .seq g h => g.nullable && h.nullable
  | .alt g h => g.nullable || h.nullable
  | .star _ => true
  | .enter _ g => g.nullable
  | .leave _ g => g.nullable

/-- The actions of the empty reading. -/
def Grammar.skip : Grammar B A → List A
  | .eps => []
  | .chr _ => []
  | .seq g h => g.skip ++ h.skip
  | .alt g h => (if g.nullable then g.skip else []) ++ (if h.nullable then h.skip else [])
  | .star _ => []
  | .enter a g => a :: g.skip
  | .leave a g => g.skip ++ [a]

/-- The ways to read one symbol: the actions at it, and what is left to read. -/
def Grammar.steps : Grammar B A → B → List (List A × Thread B A)
  | .eps, _ => []
  | .chr p, c => if p c then [([], [])] else []
  | .seq g h, c =>
    (g.steps c).map (fun m => (m.1, m.2 ++ [h])) ++
      if g.nullable then (h.steps c).map (fun m => (g.skip ++ m.1, m.2)) else []
  | .alt g h, c => g.steps c ++ h.steps c
  | .star g, c => (g.steps c).map fun m => (m.1, m.2 ++ [.star g])
  | .enter a g, c => (g.steps c).map fun m => (a :: m.1, m.2)
  | .leave a g, c => (g.steps c).map fun m => (m.1, m.2 ++ [.leave a .eps])

/-- The ways in which a thread reads one symbol. -/
def moves : Thread B A → B → List (List A × Thread B A)
  | [], _ => []
  | g :: k, c =>
    (g.steps c).map (fun m => (m.1, m.2 ++ k)) ++
      if g.nullable then (moves k c).map (fun m => (g.skip ++ m.1, m.2)) else []

/-- A thread that may end here. -/
def final (t : Thread B A) : Bool :=
  t.all Grammar.nullable

/-- The actions of a thread that ends here. -/
def exits (t : Thread B A) : List A :=
  t.flatMap Grammar.skip

/-- The threads alive after a symbol. -/
def next (ts : List (Thread B A)) (c : B) : List (Thread B A) :=
  ts.flatMap fun t => (moves t c).map Prod.snd

/-- The threads alive after a word. -/
def read (ts : List (Thread B A)) (w : List B) : List (Thread B A) :=
  w.foldl next ts

def accepting (ts : List (Thread B A)) : Bool :=
  ts.any final

variable [DecidableEq A]

/-- The actions performed at a symbol. -/
def fired (ts : List (Thread B A)) (c : B) : List A :=
  (ts.flatMap fun t => (moves t c).flatMap Prod.fst).eraseDups

/-- The actions performed at the end of the input. -/
def firedAtEnd (ts : List (Thread B A)) : List A :=
  ((ts.filter final).flatMap exits).eraseDups

/-- The actions performed over a word that begins at position `p`. -/
def events : ℕ → List (Thread B A) → List B → List (ℕ × A)
  | _, _, [] => []
  | p, ts, c :: w => (fired ts c).map (fun a => (p, a)) ++ events (p + 1) (next ts c) w

end Machine

section Runs

variable {B : Type u} {A : Type v}

theorem read_append (ts : List (Thread B A)) (w w' : List B) :
    read ts (w ++ w') = read (read ts w) w' :=
  List.foldl_append

theorem mem_next {ts : List (Thread B A)} {c : B} {t' : Thread B A} :
    t' ∈ next ts c ↔ ∃ t ∈ ts, ∃ m ∈ moves t c, m.2 = t' := by
  simp only [next, List.mem_flatMap, List.mem_map]

theorem events_append [DecidableEq A] (p : ℕ) (ts : List (Thread B A)) (w w' : List B) :
    events p ts (w ++ w') = events p ts w ++ events (p + w.length) (read ts w) w' := by
  induction w generalizing p ts with
  | nil => rfl
  | cons c w ih =>
    have hlen : p + (c :: w).length = p + 1 + w.length := by
      rw [List.length_cons]
      omega
    rw [List.cons_append, events, events, ih, List.append_assoc, hlen]
    rfl

/-- A thread in front of another: it moves, or it ends and the other moves. -/
theorem moves_append (hs k : Thread B A) (c : B) :
    moves (hs ++ k) c =
      (moves hs c).map (fun m => (m.1, m.2 ++ k)) ++
        if final hs then (moves k c).map (fun m => (exits hs ++ m.1, m.2)) else [] := by
  induction hs with
  | nil => simp [moves, final, exits]
  | cons g hs ih =>
    rw [List.cons_append, moves, moves, ih]
    cases hg : g.nullable with
    | false => simp [final, hg, Function.comp_def]
    | true =>
      cases hfinal : final hs with
      | false =>
        have hall : final (g :: hs) = false := by
          rw [final, List.all_cons, ← final, hfinal, Bool.and_false]
        simp [hall, Function.comp_def]
      | true =>
        have hall : final (g :: hs) = true := by
          rw [final, List.all_cons, ← final, hfinal, hg]
          rfl
        simp [hall, exits, Function.comp_def]

/-- Nothing behind the first part reads the symbol. -/
theorem moves_cons_of_eq_nil {k : Thread B A} {c : B} (hk : moves k c = []) (g : Grammar B A) :
    moves (g :: k) c = (g.steps c).map fun m => (m.1, m.2 ++ k) := by
  rw [moves, hk, List.map_nil, ite_self, List.append_nil]

/-- A sequence is read part by part. -/
theorem moves_seq (g h : Grammar B A) (k : Thread B A) (c : B) :
    moves (.seq g h :: k) c = moves (g :: h :: k) c := by
  rw [moves, moves, moves, Grammar.steps, Grammar.nullable, Grammar.skip]
  cases g.nullable with
  | false => simp [Function.comp_def]
  | true =>
    cases h.nullable with
    | false => simp [Function.comp_def]
    | true => simp [Function.comp_def]

/-- The action at the end of a part that has been read. -/
theorem moves_leave_eps (a : A) (k : Thread B A) (c : B) :
    moves (.leave a .eps :: k) c = (moves k c).map fun m => (a :: m.1, m.2) :=
  rfl

end Runs

section Languages

open Computability

variable {B : Type u} {A : Type v}

/-- The words of a grammar. -/
def Grammar.lang : Grammar B A → Language B
  | .eps => 1
  | .chr p => fun w => ∃ c, p c = true ∧ w = [c]
  | .seq g h => g.lang * h.lang
  | .alt g h => g.lang + h.lang
  | .star g => g.lang∗
  | .enter _ g => g.lang
  | .leave _ g => g.lang

/-- The words a thread may read to its end. -/
def threadLang (t : Thread B A) : Language B :=
  (t.map Grammar.lang).prod

theorem mem_chr {p : B → Bool} {w : List B} :
    w ∈ (Grammar.chr p : Grammar B A).lang ↔ ∃ c, p c = true ∧ w = [c] :=
  Iff.rfl

theorem threadLang_cons (g : Grammar B A) (t : Thread B A) :
    threadLang (g :: t) = g.lang * threadLang t := by
  rw [threadLang, List.map_cons, List.prod_cons, ← threadLang]

theorem threadLang_append (t t' : Thread B A) :
    threadLang (t ++ t') = threadLang t * threadLang t' := by
  rw [threadLang, List.map_append, List.prod_append, ← threadLang, ← threadLang]

theorem nil_mem_mul {L M : Language B} : [] ∈ L * M ↔ [] ∈ L ∧ [] ∈ M := by
  rw [Language.mem_mul]
  constructor
  · rintro ⟨a, ha, b, hb, heq⟩
    obtain ⟨rfl, rfl⟩ := List.append_eq_nil_iff.mp heq
    exact ⟨ha, hb⟩
  · rintro ⟨hL, hM⟩
    exact ⟨[], hL, [], hM, rfl⟩

/-- The first symbol of a product belongs to its first factor, or to its second if the
first has the empty word. -/
theorem cons_mem_mul {L M : Language B} {c : B} {w : List B} :
    c :: w ∈ L * M ↔ (∃ a b, c :: a ∈ L ∧ b ∈ M ∧ a ++ b = w) ∨ ([] ∈ L ∧ c :: w ∈ M) := by
  rw [Language.mem_mul]
  constructor
  · rintro ⟨a, ha, b, hb, heq⟩
    cases a with
    | nil => exact Or.inr ⟨ha, heq ▸ hb⟩
    | cons d a =>
      obtain ⟨rfl, rfl⟩ := List.cons.inj heq
      exact Or.inl ⟨a, b, ha, hb, rfl⟩
  · rintro (⟨a, b, ha, hb, rfl⟩ | ⟨hL, hM⟩)
    · exact ⟨c :: a, ha, b, hb, rfl⟩
    · exact ⟨[], hL, c :: w, hM, rfl⟩

theorem cons_mem_kstar {L : Language B} {c : B} {w : List B} :
    c :: w ∈ L∗ ↔ ∃ a b, c :: a ∈ L ∧ b ∈ L∗ ∧ a ++ b = w := by
  constructor
  · intro hmem
    obtain ⟨S, hS, hall⟩ := Language.mem_kstar_iff_exists_nonempty.mp hmem
    cases S with
    | nil => cases hS
    | cons x S =>
      obtain ⟨hx, hne⟩ := hall x List.mem_cons_self
      cases x with
      | nil => exact absurd rfl hne
      | cons d x =>
        obtain ⟨rfl, rfl⟩ := List.cons.inj hS
        refine ⟨x, S.flatten, hx, Language.join_mem_kstar ?_, rfl⟩
        exact fun y hy => (hall y (List.mem_cons_of_mem _ hy)).1
  · rintro ⟨a, b, ha, hb, rfl⟩
    rw [← Language.one_add_self_mul_kstar_eq_kstar, Language.add_def]
    exact Or.inr (Language.append_mem_mul ha hb)

/-- A repetition of two things is repetitions of the first with the second between. -/
theorem kstar_add_le {K : Type*} [KleeneAlgebra K] (x y : K) : (x + y)∗ ≤ x∗ * (y * x∗)∗ := by
  apply kstar_le_of_mul_le_right
  · calc
      (1 : K) = 1 * 1 := (one_mul 1).symm
      _ ≤ x∗ * (y * x∗)∗ := mul_le_mul' one_le_kstar one_le_kstar
  · rw [add_mul, ← mul_assoc, ← mul_assoc]
    apply add_le
    · exact mul_le_mul' mul_kstar_le_kstar le_rfl
    · calc
        y * x∗ * (y * x∗)∗ ≤ (y * x∗)∗ := mul_kstar_le_kstar
        _ = 1 * (y * x∗)∗ := (one_mul _).symm
        _ ≤ x∗ * (y * x∗)∗ := mul_le_mul' one_le_kstar le_rfl

/-- The words up to a separator that is a word of its own. -/
theorem mem_kstar_of_append_cons
    {L M : Language B} {c : B} (hL : ∀ v ∈ L, v = [c] ∨ (v ∈ M ∧ c ∉ v))
    {x y : List B} (hmem : x ++ c :: y ∈ L∗) (hx : c ∉ x) :
    x ∈ M∗ := by
  obtain ⟨S, hS, hall⟩ := Language.mem_kstar.mp hmem
  clear hmem
  induction S generalizing x with
  | nil => exact absurd hS (by simp)
  | cons v S ih =>
    have hrest : ∀ v ∈ S, v ∈ L := fun v hv => hall v (List.mem_cons_of_mem _ hv)
    rw [List.flatten_cons] at hS
    obtain rfl | ⟨hv, hc⟩ := hL v (hall v List.mem_cons_self)
    · cases x with
      | nil => exact Language.nil_mem_kstar M
      | cons d x =>
        obtain ⟨rfl, -⟩ := List.cons.inj hS
        exact absurd List.mem_cons_self hx
    · -- the word ends before the separator
      obtain ⟨a, rfl, ha⟩ | ⟨a, rfl, ha⟩ := List.append_eq_append_iff.mp hS
      · cases a with
        | nil =>
          rw [List.append_nil] at hc
          exact Language.mem_kstar.mpr ⟨[x], by simp, by simpa using hv⟩
        | cons d a =>
          obtain ⟨rfl, -⟩ := List.cons.inj ha
          exact absurd (List.mem_append_right x List.mem_cons_self) hc
      · have hxa : c ∉ a := fun h => hx (List.mem_append_right v h)
        have hrest := ih hxa ha.symm hrest
        rw [← Language.one_add_self_mul_kstar_eq_kstar]
        exact Or.inr (Language.append_mem_mul hv hrest)

theorem nil_mem_lang (g : Grammar B A) : [] ∈ g.lang ↔ g.nullable = true := by
  induction g with
  | eps => exact iff_of_true Language.nil_mem_one rfl
  | chr p => simp [mem_chr, Grammar.nullable]
  | seq g h ihg ihh =>
    rw [Grammar.lang, nil_mem_mul, ihg, ihh, Grammar.nullable, Bool.and_eq_true]
  | alt g h ihg ihh =>
    rw [Grammar.lang, Language.mem_add, ihg, ihh, Grammar.nullable, Bool.or_eq_true]
  | star g _ => exact iff_of_true (Language.nil_mem_kstar _) rfl
  | enter _ g ih => exact ih
  | leave _ g ih => exact ih

theorem nil_mem_threadLang (t : Thread B A) : [] ∈ threadLang t ↔ final t = true := by
  induction t with
  | nil => exact iff_of_true Language.nil_mem_one rfl
  | cons g t ih =>
    rw [threadLang_cons, nil_mem_mul, nil_mem_lang, ih]
    simp only [final, List.all_cons, Bool.and_eq_true]

/-- What is left to read after a step, with more behind it. -/
theorem exists_step_append {ms : List (List A × Thread B A)} {k : Thread B A} {w : List B} :
    (∃ m ∈ ms.map (fun m => (m.1, m.2 ++ k)), w ∈ threadLang m.2) ↔
      ∃ a b, (∃ m ∈ ms, a ∈ threadLang m.2) ∧ b ∈ threadLang k ∧ a ++ b = w := by
  simp only [List.mem_map, exists_exists_and_eq_and, threadLang_append, Language.mem_mul]
  constructor
  · rintro ⟨m, hm, a, ha, b, hb, heq⟩
    exact ⟨a, b, ⟨m, hm, ha⟩, hb, heq⟩
  · rintro ⟨a, b, ⟨m, hm, ha⟩, hb, heq⟩
    exact ⟨m, hm, a, ha, b, hb, heq⟩

/-- The steps behind an empty reading. -/
theorem exists_step_skip {n : Bool} {as : List A} {ms : List (List A × Thread B A)} {w : List B} :
    (∃ m ∈ if n then ms.map (fun m => (as ++ m.1, m.2)) else [], w ∈ threadLang m.2) ↔
      n = true ∧ ∃ m ∈ ms, w ∈ threadLang m.2 := by
  cases n with
  | false => simp
  | true =>
    rw [if_pos rfl]
    simp only [List.mem_map, exists_exists_and_eq_and, true_and]

theorem threadLang_singleton (g : Grammar B A) : threadLang [g] = g.lang := by
  rw [threadLang_cons]
  exact mul_one _

/-- A word that begins with `c` is a step at `c` and a word of what it leaves. -/
theorem cons_mem_lang (g : Grammar B A) (c : B) (w : List B) :
    c :: w ∈ g.lang ↔ ∃ m ∈ g.steps c, w ∈ threadLang m.2 := by
  induction g generalizing w with
  | eps => simp [Grammar.lang, Grammar.steps, Language.mem_one]
  | chr p =>
    rw [mem_chr, Grammar.steps]
    cases hp : p c with
    | false => simp [hp]
    | true => simp [hp, threadLang, Language.mem_one]
  | seq g h ihg ihh =>
    rw [Grammar.lang, cons_mem_mul, Grammar.steps, nil_mem_lang, ihh]
    simp only [List.mem_append, or_and_right, exists_or, exists_step_append,
      exists_step_skip, threadLang_singleton, ihg]
  | alt g h ihg ihh =>
    rw [Grammar.lang, Language.mem_add, ihg, ihh, Grammar.steps]
    simp only [List.mem_append, or_and_right, exists_or]
  | star g ih =>
    rw [Grammar.lang, cons_mem_kstar, Grammar.steps, exists_step_append,
      threadLang_singleton, Grammar.lang]
    simp only [ih]
  | enter a g ih =>
    rw [Grammar.lang, ih, Grammar.steps]
    simp only [List.mem_map, exists_exists_and_eq_and]
  | leave a g ih =>
    rw [Grammar.lang, ih, Grammar.steps, exists_step_append, threadLang_singleton]
    simp [Grammar.lang, Language.mem_one]

theorem cons_mem_threadLang (t : Thread B A) (c : B) (w : List B) :
    c :: w ∈ threadLang t ↔ ∃ m ∈ moves t c, w ∈ threadLang m.2 := by
  induction t with
  | nil => simp [threadLang, moves, Language.mem_one]
  | cons g t ih =>
    rw [threadLang_cons, cons_mem_mul, nil_mem_lang, ih, moves]
    simp only [List.mem_append, or_and_right, exists_or, exists_step_append,
      exists_step_skip, cons_mem_lang]

/-- The machine accepts the words of its grammar. -/
theorem accepting_read_iff (ts : List (Thread B A)) (w : List B) :
    accepting (read ts w) = true ↔ ∃ t ∈ ts, w ∈ threadLang t := by
  induction w generalizing ts with
  | nil => simp only [read, List.foldl_nil, accepting, List.any_eq_true, nil_mem_threadLang]
  | cons c w ih =>
    rw [read, List.foldl_cons, ← read, ih]
    simp only [mem_next, cons_mem_threadLang]
    constructor
    · rintro ⟨t', ⟨t, ht, m, hm, rfl⟩, hw⟩
      exact ⟨t, ht, m, hm, hw⟩
    · rintro ⟨t, ht, m, hm, hw⟩
      exact ⟨m.2, ⟨t, ht, m, hm, rfl⟩, hw⟩

theorem mem_lang_of_accepting
    {g : Grammar B A} {w : List B} (h : accepting (read [[g]] w) = true) :
    w ∈ g.lang := by
  obtain ⟨t, ht, hw⟩ := (accepting_read_iff [[g]] w).mp h
  rw [List.mem_singleton.mp ht, threadLang_singleton] at hw
  exact hw

end Languages

section Inside

variable {B : Type u} {A : Type v} {C : B → Prop}

/-- No actions, and no symbols but those of `C`. -/
def Grammar.Plain (C : B → Prop) : Grammar B A → Prop
  | .eps => True
  | .chr p => ∀ c, p c = true → C c
  | .seq g h => g.Plain C ∧ h.Plain C
  | .alt g h => g.Plain C ∧ h.Plain C
  | .star g => g.Plain C
  | .enter _ _ => False
  | .leave _ _ => False

/-- A decidable criterion: no actions, and no symbol of a given list. -/
def Grammar.avoids (ds : List B) : Grammar B A → Bool
  | .eps => true
  | .chr p => ds.all fun d => !p d
  | .seq g h => g.avoids ds && h.avoids ds
  | .alt g h => g.avoids ds && h.avoids ds
  | .star g => g.avoids ds
  | .enter _ _ => false
  | .leave _ _ => false

theorem plain_of_avoids {ds : List B} {g : Grammar B A} (hg : g.avoids ds = true) :
    g.Plain (fun c => c ∉ ds) := by
  induction g with
  | eps => trivial
  | chr p =>
    intro c hc hmem
    have hnot := List.all_eq_true.mp hg c hmem
    rw [hc] at hnot
    cases hnot
  | seq g h ihg ihh | alt g h ihg ihh =>
    obtain ⟨hg, hh⟩ := Bool.and_eq_true_iff.mp hg
    exact ⟨ihg hg, ihh hh⟩
  | star g ih => exact ih hg
  | enter _ _ _ => cases hg
  | leave _ _ _ => cases hg

/-- A thread in a part without actions, with `k` behind that part. -/
def Inside (C : B → Prop) (k t : Thread B A) : Prop :=
  ∃ hs, (∀ h ∈ hs, Grammar.Plain C h) ∧ t = hs ++ k

/-- A thread inside may read `w` and go on with `k`. -/
def Live (C : B → Prop) (k : Thread B A) (w : List B) (ts : List (Thread B A)) : Prop :=
  ∃ hs, (∀ h ∈ hs, Grammar.Plain C h) ∧ hs ++ k ∈ ts ∧ w ∈ threadLang hs

theorem skip_of_plain {g : Grammar B A} (hg : g.Plain C) : g.skip = [] := by
  induction g with
  | eps => rfl
  | chr p => rfl
  | seq g h ihg ihh => rw [Grammar.skip, ihg hg.1, ihh hg.2, List.append_nil]
  | alt g h ihg ihh => rw [Grammar.skip, ihg hg.1, ihh hg.2, ite_self, ite_self, List.append_nil]
  | star g _ => rfl
  | enter a g _ => exact hg.elim
  | leave a g _ => exact hg.elim

theorem exits_of_plain {hs : Thread B A} (hhs : ∀ h ∈ hs, h.Plain C) : exits hs = [] := by
  rw [exits, List.flatMap_eq_nil_iff]
  exact fun h hh => skip_of_plain (hhs h hh)

theorem steps_of_plain {g : Grammar B A} (hg : g.Plain C) {c : B} :
    ∀ m ∈ g.steps c, C c ∧ m.1 = [] ∧ ∀ h ∈ m.2, h.Plain C := by
  induction g with
  | eps => exact fun m hm => absurd hm List.not_mem_nil
  | chr p =>
    intro m hm
    rw [Grammar.steps] at hm
    split at hm
    · rename_i hp
      obtain rfl := List.mem_singleton.mp hm
      exact ⟨hg c hp, rfl, fun h hh => absurd hh List.not_mem_nil⟩
    · exact absurd hm List.not_mem_nil
  | seq g h ihg ihh =>
    intro m hm
    rw [Grammar.steps, List.mem_append] at hm
    cases hm with
    | inl hfirst =>
      obtain ⟨m', hm', rfl⟩ := List.mem_map.mp hfirst
      obtain ⟨hc, hacts, hplain⟩ := ihg hg.1 m' hm'
      refine ⟨hc, hacts, ?_⟩
      simp only [List.mem_append, List.mem_singleton]
      rintro k (hk | rfl)
      · exact hplain k hk
      · exact hg.2
    | inr hsecond =>
      split at hsecond
      · obtain ⟨m', hm', rfl⟩ := List.mem_map.mp hsecond
        obtain ⟨hc, hacts, hplain⟩ := ihh hg.2 m' hm'
        exact ⟨hc, by rw [skip_of_plain hg.1, hacts, List.append_nil], hplain⟩
      · exact absurd hsecond List.not_mem_nil
  | alt g h ihg ihh =>
    intro m hm
    cases List.mem_append.mp hm with
    | inl hfirst => exact ihg hg.1 m hfirst
    | inr hsecond => exact ihh hg.2 m hsecond
  | star g ih =>
    intro m hm
    obtain ⟨m', hm', rfl⟩ := List.mem_map.mp hm
    obtain ⟨hc, hacts, hplain⟩ := ih hg m' hm'
    refine ⟨hc, hacts, ?_⟩
    simp only [List.mem_append, List.mem_singleton]
    rintro k (hk | rfl)
    · exact hplain k hk
    · exact hg
  | enter a g _ => exact hg.elim
  | leave a g _ => exact hg.elim

theorem moves_of_plain {hs : Thread B A} (hhs : ∀ h ∈ hs, h.Plain C) {c : B} :
    ∀ m ∈ moves hs c, C c ∧ m.1 = [] ∧ ∀ h ∈ m.2, h.Plain C := by
  induction hs with
  | nil => exact fun m hm => absurd hm List.not_mem_nil
  | cons g hs ih =>
    have hg := hhs g List.mem_cons_self
    have hrest : ∀ h ∈ hs, h.Plain C := fun h hh => hhs h (List.mem_cons_of_mem g hh)
    intro m hm
    rw [moves, List.mem_append] at hm
    cases hm with
    | inl hfirst =>
      obtain ⟨m', hm', rfl⟩ := List.mem_map.mp hfirst
      obtain ⟨hc, hacts, hplain⟩ := steps_of_plain hg m' hm'
      refine ⟨hc, hacts, ?_⟩
      simp only [List.mem_append]
      rintro k (hk | hk)
      · exact hplain k hk
      · exact hrest k hk
    | inr hlater =>
      split at hlater
      · obtain ⟨m', hm', rfl⟩ := List.mem_map.mp hlater
        obtain ⟨hc, hacts, hplain⟩ := ih hrest m' hm'
        exact ⟨hc, by rw [skip_of_plain hg, hacts, List.append_nil], hplain⟩
      · exact absurd hlater List.not_mem_nil

/-- A part without actions has words over its symbols only. -/
theorem forall_of_mem_threadLang {hs : Thread B A} (hhs : ∀ h ∈ hs, h.Plain C)
    {w : List B} (hw : w ∈ threadLang hs) :
    ∀ c ∈ w, C c := by
  induction w generalizing hs with
  | nil => exact fun c hc => absurd hc List.not_mem_nil
  | cons d w ih =>
    obtain ⟨m, hm, hw⟩ := (cons_mem_threadLang hs d w).mp hw
    obtain ⟨hd, -, hplain⟩ := moves_of_plain hhs m hm
    intro c hc
    cases hc with
    | head => exact hd
    | tail _ hc => exact ih hplain hw c hc

theorem forall_of_mem_lang {g : Grammar B A} (hg : g.Plain C) {w : List B} (hw : w ∈ g.lang) :
    ∀ c ∈ w, C c := by
  rw [← threadLang_singleton] at hw
  exact forall_of_mem_threadLang (fun _ hh => List.mem_singleton.mp hh ▸ hg) hw

theorem inside_singleton {g : Grammar B A} (hg : g.Plain C) (k : Thread B A) :
    Inside C k (g :: k) :=
  ⟨[g], fun _ hh => List.mem_singleton.mp hh ▸ hg, rfl⟩

theorem live_singleton {g : Grammar B A} (hg : g.Plain C) (k : Thread B A)
    {w : List B} (hw : w ∈ g.lang) :
    Live C k w [g :: k] :=
  ⟨[g], fun _ hh => List.mem_singleton.mp hh ▸ hg, List.mem_singleton.mpr rfl,
    (threadLang_singleton g).symm ▸ hw⟩

/-- At a symbol that `k` cannot read, a thread inside stays inside and performs nothing. -/
theorem Inside.moves {k t : Thread B A} {c : B} (h : Inside C k t) (hk : moves k c = []) :
    ∀ m ∈ moves t c, m.1 = [] ∧ Inside C k m.2 := by
  obtain ⟨hs, hhs, rfl⟩ := h
  intro m hm
  rw [moves_append, hk, List.map_nil, ite_self, List.append_nil] at hm
  obtain ⟨m', hm', rfl⟩ := List.mem_map.mp hm
  obtain ⟨-, hacts, hplain⟩ := moves_of_plain hhs m' hm'
  exact ⟨hacts, m'.2, hplain, rfl⟩

/-- At a symbol outside `C`, a thread inside either ends or goes on with `k`. -/
theorem moves_outside {hs k : Thread B A} {c : B} (hhs : ∀ h ∈ hs, h.Plain C) (hc : ¬ C c) :
    moves (hs ++ k) c = if final hs then moves k c else [] := by
  have hnone : moves hs c = [] := by
    rw [List.eq_nil_iff_forall_not_mem]
    exact fun m hm => hc (moves_of_plain hhs m hm).1
  rw [moves_append, hnone, List.map_nil, List.nil_append, exits_of_plain hhs]
  simp

theorem Inside.moves_outside {k t : Thread B A} {c : B} (h : Inside C k t) (hc : ¬ C c) :
    ActionGrammar.moves t c = [] ∨ ActionGrammar.moves t c = ActionGrammar.moves k c := by
  obtain ⟨hs, hhs, rfl⟩ := h
  rw [ActionGrammar.moves_outside hhs hc]
  cases final hs with
  | false => exact Or.inl rfl
  | true => exact Or.inr rfl

theorem Live.next {k : Thread B A} {c : B} {w : List B} {ts : List (Thread B A)}
    (h : Live C k (c :: w) ts) :
    Live C k w (next ts c) := by
  obtain ⟨hs, hhs, hmem, hw⟩ := h
  obtain ⟨m, hm, hw⟩ := (cons_mem_threadLang hs c w).mp hw
  refine ⟨m.2, (moves_of_plain hhs m hm).2.2, ?_, hw⟩
  refine mem_next.mpr ⟨hs ++ k, hmem, (m.1, m.2 ++ k), ?_, rfl⟩
  rw [moves_append, List.mem_append]
  exact Or.inl (List.mem_map.mpr ⟨m, hm, rfl⟩)

theorem Live.read {k : Thread B A} {w w' : List B} {ts : List (Thread B A)}
    (h : Live C k (w ++ w') ts) :
    Live C k w' (read ts w) := by
  induction w generalizing ts with
  | nil => exact h
  | cons c w ih => exact ih h.next

/-- The first symbol of a part that is marked where it begins and saved where it ends. -/
theorem moves_token {g : Grammar B A} {a b : A} {k : Thread B A} {c : B}
    (hg : g.Plain C) (hk : moves k c = []) :
    ∀ m ∈ moves (.leave b (.enter a g) :: k) c,
      m.1 = [a] ∧ Inside C (.leave b .eps :: k) m.2 := by
  intro m hm
  rw [moves_cons_of_eq_nil hk, Grammar.steps, Grammar.steps, List.map_map, List.map_map] at hm
  obtain ⟨m', hm', rfl⟩ := List.mem_map.mp hm
  obtain ⟨-, hacts, hplain⟩ := steps_of_plain hg m' hm'
  refine ⟨?_, m'.2, hplain, ?_⟩
  · simp only [Function.comp_apply, hacts]
  · simp only [Function.comp_apply, List.append_assoc, List.singleton_append]

/-- Such a part is entered with any of its words. -/
theorem exists_moves_token {g : Grammar B A} {a b : A} {k : Thread B A} {c : B} {w : List B}
    (hg : g.Plain C) (hw : c :: w ∈ g.lang) :
    ∃ m ∈ moves (.leave b (.enter a g) :: k) c,
      m.1 = [a] ∧ Live C (.leave b .eps :: k) w [m.2] := by
  obtain ⟨m, hm, hw⟩ := (cons_mem_lang g c w).mp hw
  obtain ⟨-, hacts, hplain⟩ := steps_of_plain hg m hm
  refine ⟨(a :: m.1, m.2 ++ [.leave b .eps] ++ k), ?_, by rw [hacts], m.2, hplain, ?_, hw⟩
  · rw [ActionGrammar.moves, List.mem_append, Grammar.steps, Grammar.steps]
    simp only [List.map_map, List.mem_map]
    exact Or.inl ⟨m, hm, rfl⟩
  · rw [List.append_assoc]
    exact List.mem_singleton.mpr rfl

theorem Live.of_mem {k t : Thread B A} {w : List B} {ts : List (Thread B A)}
    (h : Live C k w [t]) (ht : t ∈ ts) :
    Live C k w ts := by
  obtain ⟨hs, hhs, hmem, hw⟩ := h
  exact ⟨hs, hhs, List.mem_singleton.mp hmem ▸ ht, hw⟩

end Inside

section Performed

variable {B : Type u} {A : Type v} {Q : Thread B A → Prop} {ts : List (Thread B A)} {c : B}

/-- At `c` the thread performs nothing, and what it becomes satisfies `Q`. -/
def Silent (Q : Thread B A → Prop) (c : B) (t : Thread B A) : Prop :=
  ∀ m ∈ moves t c, m.1 = [] ∧ Q m.2

theorem Silent.of_moves_eq_nil {t : Thread B A} (h : moves t c = []) : Silent Q c t := by
  intro m hm
  rw [h] at hm
  exact absurd hm List.not_mem_nil

/-- A thread inside dies at a symbol that neither its part nor `k` reads. -/
theorem Inside.dies {C : B → Prop} {k t : Thread B A}
    (h : Inside C k t) (hc : ¬ C c) (hk : ActionGrammar.moves k c = []) :
    Silent Q c t := by
  cases h.moves_outside hc with
  | inl hnil => exact Silent.of_moves_eq_nil hnil
  | inr heq => exact Silent.of_moves_eq_nil (heq.trans hk)

theorem silent_next (h : ∀ t ∈ ts, Silent Q c t) : ∀ t ∈ next ts c, Q t := by
  intro t' ht'
  obtain ⟨t, ht, m, hm, rfl⟩ := mem_next.mp ht'
  exact (h t ht m hm).2

theorem Silent.flatMap {t : Thread B A} (h : Silent Q c t) :
    (moves t c).flatMap Prod.fst = [] := by
  rw [List.flatMap_eq_nil_iff]
  exact fun m hm => (h m hm).1

variable [DecidableEq A]

theorem eraseDups_append_of_subset {l l' : List A} (h : l' ⊆ l) :
    (l ++ l').eraseDups = l.eraseDups := by
  have hnone : l'.removeAll l = [] := by
    rw [List.removeAll, List.filter_eq_nil_iff]
    intro a ha
    simp [h ha]
  rw [List.eraseDups_append, hnone, List.eraseDups_nil, List.append_nil]

/-- Performing the same over and over is performing it once. -/
theorem eraseDups_flatMap {T : Type*} {f : T → List A} {l : List A} {ts : List T}
    (hall : ∀ t ∈ ts, f t = [] ∨ f t = l) (hsome : ∃ t ∈ ts, f t = l) :
    (ts.flatMap f).eraseDups = l.eraseDups := by
  induction ts with
  | nil =>
    obtain ⟨t, ht, -⟩ := hsome
    exact absurd ht List.not_mem_nil
  | cons t ts ih =>
    have hrest : ∀ t ∈ ts, f t = [] ∨ f t = l :=
      fun t ht => hall t (List.mem_cons_of_mem _ ht)
    have hsubset : ts.flatMap f ⊆ l := by
      intro a ha
      obtain ⟨t, ht, ha⟩ := List.mem_flatMap.mp ha
      cases hrest t ht with
      | inl hnil => exact absurd (hnil ▸ ha) List.not_mem_nil
      | inr heq => exact heq ▸ ha
    rw [List.flatMap_cons]
    by_cases ht : f t = l
    · rw [ht, eraseDups_append_of_subset hsubset]
    · have hnil : f t = [] := (hall t List.mem_cons_self).resolve_right ht
      rw [hnil, List.nil_append]
      apply ih hrest
      obtain ⟨t', ht', heq⟩ := hsome
      cases ht' with
      | head => exact absurd heq ht
      | tail _ ht' => exact ⟨t', ht', heq⟩

theorem eraseDups_eq_singleton {l : List A} {a : A} (hall : ∀ b ∈ l, b = a) (hmem : a ∈ l) :
    l.eraseDups = [a] := by
  have heq := eraseDups_flatMap (f := fun b => [b]) (l := [a])
    (fun b hb => Or.inr (congrArg (fun b => [b]) (hall b hb))) ⟨a, hmem, rfl⟩
  rwa [List.flatMap_singleton'] at heq

theorem fired_eq_nil (h : ∀ t ∈ ts, Silent Q c t) : fired ts c = [] := by
  have hnone : (ts.flatMap fun t => (moves t c).flatMap Prod.fst) = [] := by
    rw [List.flatMap_eq_nil_iff]
    exact fun t ht => (h t ht).flatMap
  rw [fired, hnone, List.eraseDups_nil]

/-- Over a word at which every thread is silent, nothing is performed. -/
theorem silent_read {w : List B} (hw : ∀ c ∈ w, ∀ t, Q t → Silent Q c t)
    (hts : ∀ t ∈ ts, Q t) (p : ℕ) :
    events p ts w = [] ∧ ∀ t ∈ read ts w, Q t := by
  induction w generalizing ts p with
  | nil => exact ⟨rfl, hts⟩
  | cons c w ih =>
    have hc : ∀ t ∈ ts, Silent Q c t :=
      fun t ht => hw c List.mem_cons_self t (hts t ht)
    obtain ⟨hevents, hread⟩ :=
      ih (fun d hd => hw d (List.mem_cons_of_mem c hd)) (silent_next hc) (p + 1)
    refine ⟨?_, hread⟩
    rw [events, fired_eq_nil hc, hevents]
    rfl

/-- A symbol at which the threads are silent or all move alike: what these perform is
performed, and they are the ones that need not satisfy `Q`. -/
theorem cross {ms : List (List A × Thread B A)}
    (hall : ∀ t ∈ ts, Silent Q c t ∨ moves t c = ms) (hsome : ∃ t ∈ ts, moves t c = ms) :
    fired ts c = (ms.flatMap Prod.fst).eraseDups ∧
      (∀ t ∈ next ts c, Q t ∨ ∃ m ∈ ms, m.2 = t) ∧
      ∀ m ∈ ms, m.2 ∈ next ts c := by
  refine ⟨?_, ?_, ?_⟩
  · apply eraseDups_flatMap
    · intro t ht
      cases hall t ht with
      | inl hsilent => exact Or.inl hsilent.flatMap
      | inr heq => exact Or.inr (by rw [heq])
    · obtain ⟨t, ht, heq⟩ := hsome
      exact ⟨t, ht, by rw [heq]⟩
  · intro t' ht'
    obtain ⟨t, ht, m, hm, rfl⟩ := mem_next.mp ht'
    cases hall t ht with
    | inl hsilent => exact Or.inl (hsilent m hm).2
    | inr heq => exact Or.inr ⟨m, heq ▸ hm, rfl⟩
  · intro m hm
    obtain ⟨t, ht, heq⟩ := hsome
    exact mem_next.mpr ⟨t, ht, m, heq ▸ hm, rfl⟩

/-- The same for threads inside a part without actions, at a symbol that ends it. -/
theorem cross_inside {C : B → Prop} {k : Thread B A}
    (hall : ∀ t ∈ ts, Silent Q c t ∨ Inside C k t) (hlive : Live C k [] ts) (hc : ¬ C c) :
    fired ts c = ((moves k c).flatMap Prod.fst).eraseDups ∧
      (∀ t ∈ next ts c, Q t ∨ ∃ m ∈ moves k c, m.2 = t) ∧
      ∀ m ∈ moves k c, m.2 ∈ next ts c := by
  apply cross
  · intro t ht
    cases hall t ht with
    | inl hsilent => exact Or.inl hsilent
    | inr hinside =>
      cases hinside.moves_outside hc with
      | inl hnil => exact Or.inl (Silent.of_moves_eq_nil hnil)
      | inr heq => exact Or.inr heq
  · obtain ⟨hs, hhs, hmem, hnil⟩ := hlive
    refine ⟨hs ++ k, hmem, ?_⟩
    rw [moves_outside hhs hc, if_pos ((nil_mem_threadLang hs).mp hnil)]

/-- The state has one thread, as often as may be. -/
def Just (t : Thread B A) (ts : List (Thread B A)) : Prop :=
  t ∈ ts ∧ ∀ t' ∈ ts, t' = t

/-- All threads have read a part without actions, one of them to its end. -/
def Passed (C : B → Prop) (k : Thread B A) (ts : List (Thread B A)) : Prop :=
  (∀ t ∈ ts, Inside C k t) ∧ Live C k [] ts

omit [DecidableEq A] in
theorem just_of_moves {t : Thread B A} {ms : List (List A × Thread B A)}
    (hms : ∀ m ∈ ms, m.2 = t) (hne : ms ≠ [])
    (hnext : ∀ t' ∈ ts, False ∨ ∃ m ∈ ms, m.2 = t') (hmem : ∀ m ∈ ms, m.2 ∈ ts) :
    Just t ts := by
  obtain ⟨m, hm⟩ := List.exists_mem_of_ne_nil ms hne
  refine ⟨hms m hm ▸ hmem m hm, ?_⟩
  intro t' ht'
  obtain hfalse | ⟨m', hm', rfl⟩ := hnext t' ht'
  · exact hfalse.elim
  · exact hms m' hm'

theorem Just.cross {t : Thread B A} (h : Just t ts) :
    fired ts c = ((moves t c).flatMap Prod.fst).eraseDups ∧
      (∀ t' ∈ next ts c, False ∨ ∃ m ∈ moves t c, m.2 = t') ∧
      ∀ m ∈ moves t c, m.2 ∈ next ts c := by
  apply ActionGrammar.cross
  · intro t' ht'
    exact Or.inr (by rw [h.2 t' ht'])
  · exact ⟨t, h.1, rfl⟩

/-- Over a word whose first symbol leads into parts without actions. -/
theorem Just.read {t : Thread B A} {w : List B} (h : Just t ts) (hmoves : ∀ m ∈ moves t c, Q m.2)
    (hw : ∀ d ∈ w, ∀ t, Q t → Silent Q d t) (p : ℕ) :
    events p ts (c :: w) = (fired ts c).map (fun a => (p, a)) ∧
      ∀ t ∈ ActionGrammar.read ts (c :: w), Q t := by
  have hQ : ∀ t ∈ next ts c, Q t := by
    intro t ht
    obtain hfalse | ⟨m, hm, rfl⟩ := h.cross.2.1 t ht
    · exact hfalse.elim
    · exact hmoves m hm
  obtain ⟨hevents, hread⟩ := silent_read hw hQ (p + 1)
  refine ⟨?_, hread⟩
  rw [events, hevents, List.append_nil]

theorem Just.live {C : B → Prop} {k t : Thread B A} {w w' : List B}
    (h : Just t ts) (hlive : ∃ m ∈ moves t c, Live C k (w ++ w') [m.2]) :
    Live C k w' (ActionGrammar.read ts (c :: w)) := by
  obtain ⟨m, hm, hlive⟩ := hlive
  exact (hlive.of_mem (h.cross.2.2 m hm)).read

/-- Over a word of a marked part: the mark at its first symbol, and nothing more. -/
theorem Just.read_token {C : B → Prop} {g : Grammar B A} {a b : A} {k : Thread B A} {w : List B}
    (h : Just (.leave b (.enter a g) :: k) ts) (hg : g.Plain C)
    (hk : ∀ c, C c → moves k c = []) (hw : w ∈ g.lang) (hne : w ≠ []) (p : ℕ) :
    events p ts w = [(p, a)] ∧ Passed C (.leave b .eps :: k) (ActionGrammar.read ts w) := by
  cases w with
  | nil => exact absurd rfl hne
  | cons c w =>
    have hclass := forall_of_mem_lang hg hw
    have hmoves := moves_token (a := a) (b := b) hg (hk c (hclass c List.mem_cons_self))
    obtain ⟨m, hm, hacts, hlive⟩ := exists_moves_token (a := a) (b := b) (k := k) hg hw
    have hsilent : ∀ d ∈ w, ∀ t, Inside C (.leave b .eps :: k) t →
        Silent (Inside C (.leave b .eps :: k)) d t := by
      intro d hd t ht
      apply ht.moves
      rw [moves_leave_eps, hk d (hclass d (List.mem_cons_of_mem c hd)), List.map_nil]
    have hfired : fired ts c = [a] := by
      rw [h.cross.1]
      exact eraseDups_flatMap (l := [a]) (fun m hm => Or.inr (hmoves m hm).1) ⟨m, hm, hacts⟩
    obtain ⟨hevents, hread⟩ := h.read (fun m hm => (hmoves m hm).2) hsilent p
    rw [hfired] at hevents
    refine ⟨hevents, hread, h.live ⟨m, hm, ?_⟩⟩
    rw [List.append_nil]
    exact hlive

/-- A symbol behind a part that leads to one thread, where all other threads die. -/
theorem cross_just {C : B → Prop} {k t : Thread B A} {l : List A}
    (hall : ∀ t ∈ ts, Silent (fun _ => False) c t ∨ Inside C k t) (hlive : Live C k [] ts)
    (hc : ¬ C c) (hk : ∀ m ∈ moves k c, m = (l, t)) (hne : moves k c ≠ []) :
    fired ts c = l.eraseDups ∧ Just t (next ts c) := by
  obtain ⟨hfired, hnext, hmem⟩ := cross_inside hall hlive hc
  refine ⟨?_, just_of_moves (fun m hm => congrArg Prod.snd (hk m hm)) hne hnext hmem⟩
  obtain ⟨m, hm⟩ := List.exists_mem_of_ne_nil _ hne
  rw [hfired]
  exact eraseDups_flatMap (fun m hm => Or.inr (congrArg Prod.fst (hk m hm)))
    ⟨m, hm, congrArg Prod.fst (hk m hm)⟩

/-- A symbol behind a part, and a marked part behind the symbol. -/
theorem Passed.read_token
    {C D : B → Prop} {g : Grammar B A} {a b b' : A} {k k' : Thread B A} {w : List B}
    (h : Passed C (.leave b' .eps :: k) ts) (hc : ¬ C c)
    (hk : moves k c = [([], .leave b (.enter a g) :: k')])
    (hg : g.Plain D) (hk' : ∀ d, D d → moves k' d = []) (hw : w ∈ g.lang) (hne : w ≠ []) (p : ℕ) :
    events p ts (c :: w) = [(p, b'), (p + 1, a)] ∧
      Passed D (.leave b .eps :: k') (ActionGrammar.read ts (c :: w)) := by
  have hmoves : moves (.leave b' .eps :: k) c = [([b'], .leave b (.enter a g) :: k')] := by
    rw [moves_leave_eps, hk]
    rfl
  obtain ⟨hfired, hjust⟩ := cross_just (l := [b']) (t := .leave b (.enter a g) :: k')
    (fun t ht => Or.inr (h.1 t ht)) h.2 hc
    (by rw [hmoves]; exact fun m hm => List.mem_singleton.mp hm) (by rw [hmoves]; simp)
  obtain ⟨hevents, hpassed⟩ := hjust.read_token hg hk' hw hne (p + 1)
  refine ⟨?_, hpassed⟩
  rw [events, hfired, hevents]
  rfl

/-- At the end of the input, threads that all end alike. -/
theorem firedAtEnd_eq {l : List A}
    (hall : ∀ t ∈ ts, final t = true → exits t = l) (hacc : accepting ts = true) :
    firedAtEnd ts = l.eraseDups := by
  apply eraseDups_flatMap
  · intro t ht
    rw [List.mem_filter] at ht
    exact Or.inr (hall t ht.1 ht.2)
  · obtain ⟨t, ht, hfinal⟩ := List.any_eq_true.mp hacc
    exact ⟨t, List.mem_filter.mpr ⟨ht, hfinal⟩, hall t ht hfinal⟩

theorem Passed.atEnd {C : B → Prop} {k : Thread B A} (h : Passed C k ts) (hk : final k = true) :
    firedAtEnd ts = (exits k).eraseDups ∧ accepting ts = true := by
  have hacc : accepting ts = true := by
    obtain ⟨hs, -, hmem, hnil⟩ := h.2
    refine List.any_eq_true.mpr ⟨hs ++ k, hmem, ?_⟩
    rw [final, List.all_append, ← final, ← final, (nil_mem_threadLang hs).mp hnil, hk]
    rfl
  refine ⟨firedAtEnd_eq ?_ hacc, hacc⟩
  intro t ht _
  obtain ⟨hs, hhs, rfl⟩ := h.1 t ht
  rw [exits, List.flatMap_append, ← exits, ← exits, exits_of_plain hhs, List.nil_append]

end Performed

end ActionGrammar
end Civan
