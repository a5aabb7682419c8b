import Mathlib.Logic.Relation
import Mathlib.Algebra.Order.BigOperators.Group.List
import Mathlib.Algebra.Order.Ring.Int
import Mathlib.Algebra.Order.Group.Nat
import Mathlib.Tactic.ByContra

/-! Any number of calls over one shared state, interleaved at will. A call is
a local state; a program says how a call starts and what its next atomic action
does under an answer of the environment. Counting invariants are stated over
sums of a weight of the local states. -/
namespace MoonInWater.Threads
variable {G L E C : Type}

structure Program (G L E C : Type) where
  start : E → G → Option (G × L)
  step : C → G → L → Option (G × L)

/-- The calls stand in the order in which they were started; a finished call
keeps its last local state. -/
structure Config (G L : Type) where
  shared : G
  calls : List L
deriving DecidableEq

/-- Sum of a weight over all calls. -/
def Config.total (w : L → Nat) (c : Config G L) : Nat := (c.calls.map w).sum

@[simp] theorem total_nil (w : L → Nat) (g : G) : Config.total w ⟨g, []⟩ = 0 := rfl

@[simp] theorem total_start (w : L → Nat) (g g' : G) (ls : List L) (l : L) :
    Config.total w ⟨g, ls ++ [l]⟩ = Config.total w ⟨g', ls⟩ + w l := by
  simp [Config.total]

/-- The weight of the calls around one call. -/
def others (w : L → Nat) (pre post : List L) : Nat := (pre.map w).sum + (post.map w).sum

@[simp] theorem total_split (w : L → Nat) (g : G) (pre post : List L) (l : L) :
    Config.total w ⟨g, pre ++ l :: post⟩ = w l + others w pre post := by
  simp [Config.total, others, Nat.add_left_comm]

/-- A property of all calls after one of them has changed. -/
theorem forall_split {P Q : L → Prop} {pre post : List L} {l l' : L}
    (all : ∀ x ∈ pre ++ l :: post, P x) (changed : Q l')
    (kept : ∀ x ∈ pre ++ post, P x → Q x) : ∀ x ∈ pre ++ l' :: post, Q x := by
  intro x member
  rcases List.mem_append.mp member with before | after
  · exact kept x (by simp [before]) (all x (by simp [before]))
  · rcases List.mem_cons.mp after with rfl | after
    · exact changed
    · exact kept x (by simp [after]) (all x (by simp [after]))

theorem weight_le_sum {w : L → Nat} {ls : List L} (member : l ∈ ls) : w l ≤ (ls.map w).sum := by
  obtain ⟨pre, post, rfl⟩ := List.mem_iff_append.mp member
  simp only [List.map_append, List.map_cons, List.sum_append, List.sum_cons]
  omega

theorem weight_le_others {w : L → Nat} {pre post : List L} (member : l ∈ pre ++ post) :
    w l ≤ others w pre post := by
  have part : w l ≤ ((pre ++ post).map w).sum := weight_le_sum member
  simpa only [others, List.map_append, List.sum_append] using part

theorem others_mono {w w' : L → Nat} (pre post : List L) (le : ∀ l, w l ≤ w' l) :
    others w pre post ≤ others w' pre post :=
  Nat.add_le_add (List.sum_le_sum fun l _ => le l) (List.sum_le_sum fun l _ => le l)

theorem forall_start {P Q : L → Prop} {ls : List L} {l : L} (all : ∀ x ∈ ls, P x)
    (started : Q l) (kept : ∀ x, P x → Q x) : ∀ x ∈ ls ++ [l], Q x := by
  intro x member
  rcases List.mem_append.mp member with old | new
  · exact kept x (all x old)
  · exact List.mem_singleton.mp new ▸ started

theorem weight_le_total {w : L → Nat} {c : Config G L} {l : L} (member : l ∈ c.calls) :
    w l ≤ c.total w := weight_le_sum member

theorem exists_of_total_pos {w : L → Nat} {c : Config G L} (positive : 0 < c.total w) :
    ∃ l ∈ c.calls, 0 < w l := by
  by_contra none
  have zero : c.total w = 0 := by
    apply List.sum_eq_zero
    intro n member
    obtain ⟨l, found, rfl⟩ := List.mem_map.mp member
    exact Nat.eq_zero_of_not_pos fun some => none ⟨l, found, some⟩
  omega

/-- A weight with a zero sum is zero at each call. -/
theorem weight_zero {w : L → Nat} {c : Config G L} (none : c.total w = 0) {l : L}
    (member : l ∈ c.calls) : w l = 0 :=
  Nat.eq_zero_of_le_zero (none ▸ weight_le_total member)

namespace Program

inductive Step (p : Program G L E C) : Config G L → Config G L → Prop where
  | start : p.start e g = some (g', l) → Step p ⟨g, ls⟩ ⟨g', ls ++ [l]⟩
  | step : p.step a g l = some (g', l') → Step p ⟨g, pre ++ l :: post⟩ ⟨g', pre ++ l' :: post⟩

/-- Runs all of whose later states meet `ok`. -/
abbrev ReachesWithin (p : Program G L E C) (ok : Config G L → Prop) :=
  Relation.ReflTransGen (fun c c' => p.Step c c' ∧ ok c')

abbrev Reaches (p : Program G L E C) := Relation.ReflTransGen p.Step

variable {p : Program G L E C} {ok I : Config G L → Prop}

/-- The only call acts. -/
theorem Step.alone (acted : p.step a g l = some (g', l')) : p.Step ⟨g, [l]⟩ ⟨g', [l']⟩ := by
  rw [← List.nil_append [l], ← List.nil_append [l']]
  exact .step acted

theorem ReachesWithin.reaches (run : p.ReachesWithin ok c c') : p.Reaches c c' :=
  Relation.ReflTransGen.mono (fun _ _ h => h.1) _ _ run

/-- The induction over a run, once: what holds at the start and is kept by
every start of a call and every action of a call holds at the end. -/
theorem ReachesWithin.invariant (initial : I c)
    (starts : ∀ {e g g' l ls}, I ⟨g, ls⟩ → p.start e g = some (g', l) →
      ok ⟨g', ls ++ [l]⟩ → I ⟨g', ls ++ [l]⟩)
    (steps : ∀ {a g g' l l' pre post}, I ⟨g, pre ++ l :: post⟩ → p.step a g l = some (g', l') →
      ok ⟨g', pre ++ l' :: post⟩ → I ⟨g', pre ++ l' :: post⟩)
    (run : p.ReachesWithin ok c c') : I c' := by
  induction run with
  | refl => exact initial
  | tail _ last ih =>
    obtain ⟨step, within⟩ := last
    cases step with
    | start entered => exact starts ih entered within
    | step acted => exact steps ih acted within

theorem Reaches.within (run : p.Reaches c c') : p.ReachesWithin (fun _ => True) c c' :=
  Relation.ReflTransGen.mono (fun _ _ h => ⟨h, trivial⟩) _ _ run

theorem Reaches.invariant (initial : I c)
    (starts : ∀ {e g g' l ls}, I ⟨g, ls⟩ → p.start e g = some (g', l) → I ⟨g', ls ++ [l]⟩)
    (steps : ∀ {a g g' l l' pre post}, I ⟨g, pre ++ l :: post⟩ → p.step a g l = some (g', l') →
      I ⟨g', pre ++ l' :: post⟩)
    (run : p.Reaches c c') : I c' :=
  ReachesWithin.invariant initial (fun h s _ => starts h s) (fun h s _ => steps h s)
    (Reaches.within run)

/-- A step whose call meets a condition in the state before it; starts are free. -/
inductive StepWhere (p : Program G L E C) (may : Config G L → L → Prop) :
    Config G L → Config G L → Prop where
  | start : p.start e g = some (g', l) → StepWhere p may ⟨g, ls⟩ ⟨g', ls ++ [l]⟩
  | step : may ⟨g, pre ++ l :: post⟩ l → p.step a g l = some (g', l') →
      StepWhere p may ⟨g, pre ++ l :: post⟩ ⟨g', pre ++ l' :: post⟩

/-- Runs all of whose steps meet a condition. -/
abbrev ReachesWhere (p : Program G L E C) (may : Config G L → L → Prop) :=
  Relation.ReflTransGen (p.StepWhere may)

theorem StepWhere.step_of {may : Config G L → L → Prop} (step : p.StepWhere may c c') :
    p.Step c c' := by
  cases step with
  | start entered => exact .start entered
  | step _ acted => exact .step acted

theorem ReachesWhere.reaches {may : Config G L → L → Prop} (run : p.ReachesWhere may c c') :
    p.Reaches c c' := Relation.ReflTransGen.mono (fun _ _ => StepWhere.step_of) _ _ run

theorem ReachesWhere.invariant {may : Config G L → L → Prop} (initial : I c)
    (starts : ∀ {e g g' l ls}, I ⟨g, ls⟩ → p.start e g = some (g', l) → I ⟨g', ls ++ [l]⟩)
    (steps : ∀ {a g g' l l' pre post}, I ⟨g, pre ++ l :: post⟩ → may ⟨g, pre ++ l :: post⟩ l →
      p.step a g l = some (g', l') → I ⟨g', pre ++ l' :: post⟩)
    (run : p.ReachesWhere may c c') : I c' := by
  induction run with
  | refl => exact initial
  | tail _ last ih =>
    cases last with
    | start entered => exact starts ih entered
    | step met acted => exact steps ih met acted

/-- A call with nothing left to do stays as it is. -/
theorem Reaches.keeps {l : L} (final : ∀ a g, p.step a g l = none) (member : l ∈ c.calls)
    (run : p.Reaches c c') : l ∈ c'.calls := by
  induction run with
  | refl => exact member
  | tail _ last ih =>
    cases last with
    | start entered => exact List.mem_append_left _ ih
    | @step a g l₁ g' l₂ pre post acted =>
      rcases List.mem_append.mp ih with before | after
      · exact List.mem_append_left _ before
      · rcases List.mem_cons.mp after with same | after
        · rw [← same, final] at acted
          contradiction
        · exact List.mem_append_right _ (List.mem_cons_of_mem _ after)

/-- The call of index `i` acts `n` times. -/
def turns (i n : Nat) (a : C) : List (E ⊕ Nat × C) := List.replicate n (.inr (i, a))

/-- A schedule starts calls (`inl`) and lets the call of an index act (`inr`). -/
def exec (p : Program G L E C) (ok : Config G L → Prop) [DecidablePred ok] :
    List (E ⊕ Nat × C) → Config G L → Option (Config G L)
  | [], c => some c
  | .inl e :: rest, ⟨g, ls⟩ =>
    match p.start e g with
    | some (g', l) => if ok ⟨g', ls ++ [l]⟩ then p.exec ok rest ⟨g', ls ++ [l]⟩ else none
    | none => none
  | .inr (i, a) :: rest, ⟨g, ls⟩ =>
    match ls[i]? with
    | none => none
    | some l =>
      match p.step a g l with
      | some (g', l') => if ok ⟨g', ls.set i l'⟩ then p.exec ok rest ⟨g', ls.set i l'⟩ else none
      | none => none

theorem step_set {i : Nat} {ls : List L} (found : ls[i]? = some l)
    (acted : p.step a g l = some (g', l')) : p.Step ⟨g, ls⟩ ⟨g', ls.set i l'⟩ := by
  obtain ⟨bound, rfl⟩ := List.getElem?_eq_some_iff.mp found
  have split : ls = ls.take i ++ ls[i] :: ls.drop (i + 1) := by simp
  have replaced : ls.set i l' = ls.take i ++ l' :: ls.drop (i + 1) :=
    List.set_eq_take_append_cons_drop.trans (if_pos bound)
  rw [replaced]
  conv => lhs; rw [split]
  exact .step acted

theorem exec_reaches [DecidablePred ok] {schedule : List (E ⊕ Nat × C)}
    (done : p.exec ok schedule c = some c') : p.ReachesWithin ok c c' := by
  induction schedule generalizing c with
  | nil =>
    cases done
    exact .refl
  | cons action rest ih =>
    obtain ⟨g, ls⟩ := c
    cases action with
    | inl e =>
      simp only [exec] at done
      split at done
      · split at done
        · exact .head ⟨.start ‹_›, ‹_›⟩ (ih done)
        · contradiction
      · contradiction
    | inr action =>
      obtain ⟨i, a⟩ := action
      simp only [exec] at done
      split at done
      · contradiction
      · split at done
        · split at done
          · exact .head ⟨step_set ‹_› ‹_›, ‹_›⟩ (ih done)
          · contradiction
        · contradiction

/-- A schedule of which each step meets a condition. -/
def execWhere (p : Program G L E C) (may : Config G L → L → Bool) :
    List (E ⊕ Nat × C) → Config G L → Option (Config G L)
  | [], c => some c
  | .inl e :: rest, ⟨g, ls⟩ =>
    (p.start e g).bind fun r => p.execWhere may rest ⟨r.1, ls ++ [r.2]⟩
  | .inr (i, a) :: rest, ⟨g, ls⟩ =>
    (ls[i]?).bind fun l =>
      if may ⟨g, ls⟩ l then
        (p.step a g l).bind fun r => p.execWhere may rest ⟨r.1, ls.set i r.2⟩
      else none

theorem execWhere_reaches {may : Config G L → L → Bool} {schedule : List (E ⊕ Nat × C)}
    (done : p.execWhere may schedule c = some c') :
    p.ReachesWhere (fun c l => may c l = true) c c' := by
  induction schedule generalizing c with
  | nil =>
    cases done
    exact .refl
  | cons action rest ih =>
    obtain ⟨g, ls⟩ := c
    cases action with
    | inl e =>
      obtain ⟨⟨g', l⟩, entered, done⟩ := Option.bind_eq_some_iff.mp done
      exact .head (.start entered) (ih done)
    | inr action =>
      obtain ⟨i, a⟩ := action
      obtain ⟨l, found, done⟩ := Option.bind_eq_some_iff.mp done
      split at done
      next met =>
        obtain ⟨⟨g', l'⟩, acted, done⟩ := Option.bind_eq_some_iff.mp done
        refine .head ?_ (ih done)
        obtain ⟨bound, rfl⟩ := List.getElem?_eq_some_iff.mp found
        have split : ls = ls.take i ++ ls[i] :: ls.drop (i + 1) := by simp
        have replaced : ls.set i l' = ls.take i ++ l' :: ls.drop (i + 1) :=
          List.set_eq_take_append_cons_drop.trans (if_pos bound)
        rw [replaced]
        have step : p.StepWhere (fun c l => may c l = true)
            ⟨g, ls.take i ++ ls[i] :: ls.drop (i + 1)⟩ ⟨g', ls.take i ++ l' :: ls.drop (i + 1)⟩ :=
          .step (split ▸ met) acted
        rwa [← split] at step
      next => contradiction

end Program
end MoonInWater.Threads
