import MoonInWater.Common.Heap
import MoonInWater.Lib.Follows
import Mathlib.Data.Multiset.AddSub

/-! The heap as a priority queue: what heap_push and heap_pop have to keep for the root to go before
all other elements, and when they do. -/
namespace MoonInWater.Common.Heap
open Machine
variable {E : Type}

/-- A compare function that orders the elements, some of which may be equal in the order. -/
structure Orders (compare : E → E → Int) : Prop where
  opposite : ∀ a b, compare a b < 0 ↔ 0 < compare b a
  trans : ∀ a b c, compare a b ≤ 0 → compare b c ≤ 0 → compare a c ≤ 0

inductive Op (E : Type) where
  | push (x : E)
  | pop

/-- A heap, and what has been popped from it. -/
structure State (E : Type) where
  heap : MaxMinHeap E
  popped : List E

def pushed : Op E → Multiset E → Multiset E
  | .push x, all => x ::ₘ all
  | .pop, all => all

section
variable (compare : E → E → Int) (isMin : Bool)

def step : Op E → State E → Option (State E × Option E)
  | .push x, s => (heapPush compare s.heap x).map fun h => (⟨h, s.popped⟩, none)
  | .pop, s => (heapPop compare s.heap).map fun r => (⟨r.1, s.popped ++ r.2.toList⟩, r.2)

/-- The element goes before all of these, or along with them. -/
def First (e : E) (xs : List E) : Prop :=
  e ∈ xs ∧ ∀ x ∈ xs, isSwap isMin (compare x e) = false

/-- What a step may deliver. -/
def Delivers (op : Op E) (_ : Multiset E) (s _ : State E) (out : Option E) : Prop :=
  match op with
  | .push _ => out = none
  | .pop => (elements s.heap = [] ∧ out = none) ∨
      ∃ e, out = some e ∧ First compare isMin e (elements s.heap)

/-- The heap holds what has been pushed and not popped, and its top goes first. -/
structure Queue (s : State E) (all : Multiset E) : Prop where
  account : (elements s.heap : Multiset E) + s.popped = all
  length : heapLength s.heap = (elements s.heap).length
  top : (elements s.heap = [] ∧ heapTop s.heap = some none) ∨
    ∃ e, heapTop s.heap = some (some e) ∧ First compare isMin e (elements s.heap)

/-- The steps that keep the first element at the root: a push that need not change the root or comes
to it, and a pop that moves the first one of the elements left. -/
def Keeps (op : Op E) (s : State E) : Prop :=
  match op with
  | .push x => OnPath (elements s.heap).length ∨
      ∀ root ∈ (elements s.heap).head?, isSwap isMin (compare x root) = false
  | .pop => ∀ last ∈ (elements s.heap).tail.getLast?, ∀ x ∈ (elements s.heap).tail,
      isSwap isMin (compare x last) = false

structure Inv (s : State E) (all : Multiset E) (xs : List E) : Prop where
  holds : Holds s.heap xs
  mode : s.heap.isMin = isMin
  account : (xs : Multiset E) + s.popped = all
  root : ∀ r ∈ xs.head?, First compare isMin r xs

def Sound (s : State E) (all : Multiset E) : Prop := ∃ xs, Inv compare isMin s all xs

end

section
variable {compare : E → E → Int} {isMin : Bool} {h : MaxMinHeap E} {s s' : State E}
variable {all : Multiset E} {xs ys : List E} {x y r : E}

theorem Orders.le_iff (orders : Orders compare) (x y : E) : compare x y ≤ 0 ↔ 0 ≤ compare y x := by
  have opposite := orders.opposite y x
  omega

theorem Orders.irrefl (orders : Orders compare) (isMin : Bool) (x : E) :
    isSwap isMin (compare x x) = false := by
  have opposite := orders.opposite x x
  have same : compare x x = 0 := by omega
  cases isMin <;> simp [isSwap, same]

theorem Orders.asymm (orders : Orders compare) (before : isSwap isMin (compare x y) = true) :
    isSwap isMin (compare y x) = false := by
  have opposite := orders.opposite x y
  have opposite' := orders.opposite y x
  cases isMin
  · simp only [isSwap, Bool.false_and, Bool.not_false, Bool.true_and, Bool.false_or,
      decide_eq_true_eq, decide_eq_false_iff_not] at before ⊢
    omega
  · simp only [isSwap, Bool.true_and, Bool.not_true, Bool.false_and, Bool.or_false,
      decide_eq_true_eq, decide_eq_false_iff_not] at before ⊢
    omega

/-- What goes before the root goes before all that the root does not come after. -/
theorem Orders.before (orders : Orders compare) (before : isSwap isMin (compare x r) = true)
    (behind : isSwap isMin (compare y r) = false) : isSwap isMin (compare x y) = true := by
  cases isMin
  · simp only [isSwap, Bool.false_and, Bool.not_false, Bool.true_and, Bool.false_or,
      decide_eq_true_eq, decide_eq_false_iff_not] at before behind ⊢
    by_contra low
    have through := orders.trans x y r (by omega) (by omega)
    omega
  · simp only [isSwap, Bool.true_and, Bool.not_true, Bool.false_and, Bool.or_false,
      decide_eq_true_eq, decide_eq_false_iff_not] at before behind ⊢
    by_contra low
    have through := orders.trans r y x ((orders.le_iff r y).mpr (by omega))
      ((orders.le_iff y x).mpr (by omega))
    have opposite := (orders.le_iff r x).mp through
    omega

theorem Holds.top (holds : Holds h xs) : heapTop h = some xs.head? := by
  obtain ⟨rest, _, buf⟩ := holds.buf
  cases xs with
  | nil => exact if_pos holds.len
  | cons x xs =>
    have len := holds.len
    rw [List.length_cons] at len
    rw [heapTop, if_neg (by omega), buf, slot_elem (i := 0) (x := x) rfl]
    rfl

theorem Inv.queue (inv : Inv compare isMin s all xs) : Queue compare isMin s all := by
  have here := inv.holds.elements
  refine ⟨here.symm ▸ inv.account, here.symm ▸ inv.holds.len, ?_⟩
  rw [here, inv.holds.top]
  cases xs with
  | nil => exact .inl ⟨rfl, rfl⟩
  | cons r xs => exact .inr ⟨r, rfl, inv.root r rfl⟩

theorem First.of_perm (perm : ys.Perm xs) (first : First compare isMin x xs) :
    First compare isMin x ys :=
  ⟨perm.mem_iff.mpr first.1, fun y member => first.2 y (perm.mem_iff.mp member)⟩

/-- What heap_push leaves at the root. -/
theorem push_root (orders : Orders compare) (inv : Inv compare isMin s all xs) (x : E) :
    ∃ h ys, heapPush compare s.heap x = some h ∧ Holds h ys ∧ h.isMin = isMin ∧
      ys.Perm (xs ++ [x]) ∧
      ((OnPath xs.length ∨ ∀ root ∈ xs.head?, isSwap isMin (compare x root) = false) →
        ∀ r ∈ ys.head?, First compare isMin r (xs ++ [x])) ∧
      (¬ OnPath xs.length → ys.head? = (xs ++ [x]).head?) := by
  obtain ⟨h, ys, ran, holds, mode, perm, root, first⟩ := heapPush_elems inv.holds x
  rw [inv.mode] at root first mode
  rw [← List.head?_eq_getElem?, ← List.head?_eq_getElem?] at root
  rw [← List.head?_eq_getElem?] at first
  refine ⟨h, ys, ran, holds, mode, perm, ?_, fun out => ?_⟩
  · intro keeps r there
    cases xs with
    | nil =>
      have single := perm.mem_iff.mp (List.mem_of_head? there)
      rw [List.nil_append, List.mem_singleton] at single
      subst single
      exact ⟨by simp, by simpa using orders.irrefl isMin r⟩
    | cons q xs =>
      obtain ⟨member, behind⟩ := inv.root q rfl
      by_cases before : isSwap isMin (compare x q) = true
      · -- the new element goes before all others, and comes to the root
        have onPath : OnPath (q :: xs).length := by
          rcases keeps with onPath | stays
          · exact onPath
          · rw [stays q rfl] at before
            contradiction
        have all : ∀ y ∈ q :: xs, isSwap isMin (compare x y) = true :=
          fun y member => orders.before before (behind y member)
        have same : x = r := Option.some.inj ((first onPath all).symm.trans there)
        subst same
        refine ⟨by simp, fun y member => ?_⟩
        rcases List.mem_append.mp member with old | new
        · exact orders.asymm (all y old)
        · rw [List.mem_singleton.mp new]
          exact orders.irrefl isMin x
      · have same : q = r := by
          rcases root with same | ⟨_, _, q', here, less⟩
          · exact Option.some.inj (same.symm.trans there)
          · cases here
            exact absurd less before
        subst same
        refine ⟨List.mem_append_left _ member, fun y member => ?_⟩
        rcases List.mem_append.mp member with old | new
        · exact behind y old
        · rw [List.mem_singleton.mp new]
          exact eq_false_of_ne_true before
  · rcases root with same | ⟨_, onPath, _⟩
    · exact same
    · exact absurd onPath out

/-- heap_pop delivers the root. Of what is left, the last one comes to the root. -/
theorem pop_root (inv : Inv compare isMin s all xs) :
    (xs = [] ∧ step compare .pop s = some (s, none)) ∨
    ∃ r rest h ys, xs = r :: rest ∧
      step compare .pop s = some (⟨h, s.popped ++ [r]⟩, some r) ∧ Holds h ys ∧ h.isMin = isMin ∧
      ys.Perm rest ∧ ys.head? = rest.getLast? := by
  have holds := inv.holds
  cases xs with
  | nil =>
    have empty : heapPop compare s.heap = some (s.heap, none) := if_pos holds.len
    refine .inl ⟨rfl, ?_⟩
    simp only [step, empty, Option.map_some, Option.toList_none, List.append_nil]
  | cons r rest =>
    refine .inr ⟨r, rest, ?_⟩
    rcases List.eq_nil_or_concat rest with rfl | ⟨mid, l, rfl⟩
    · obtain ⟨h, ran, left, mode⟩ := heapPop_last compare holds
      refine ⟨h, [], rfl, ?_, left, mode.trans inv.mode, .nil, rfl⟩
      simp only [step, ran, Option.map_some, Option.toList_some]
    · rw [List.concat_eq_append] at holds ⊢
      obtain ⟨h, ran, left, mode⟩ := heapPop_more compare holds
      refine ⟨h, l :: mid, rfl, ?_, left, mode.trans inv.mode, ?_, ?_⟩
      · simp only [step, ran, Option.map_some, Option.toList_some]
      · exact (List.perm_append_singleton l mid).symm
      · rw [List.head?_cons, List.getLast?_concat]

theorem step_keeps (orders : Orders compare) (op : Op E) (inv : Inv compare isMin s all xs)
    (keeps : Keeps compare isMin op s) :
    ∃ s' out, step compare op s = some (s', out) ∧ Delivers compare isMin op all s s' out ∧
      ∃ ys, Inv compare isMin s' (pushed op all) ys := by
  have here := inv.holds.elements
  cases op with
  | push x =>
    obtain ⟨h, ys, ran, holds, mode, perm, root, _⟩ := push_root orders inv x
    simp only [Keeps, here] at keeps
    refine ⟨⟨h, s.popped⟩, none, ?_, rfl, ys, holds, mode, ?_, fun r there => ?_⟩
    · rw [step, ran]
      rfl
    · rw [pushed, ← inv.account, ← Multiset.cons_add]
      congr 1
      exact (Multiset.coe_eq_coe.mpr (perm.trans List.perm_append_comm))
    · exact (root keeps r there).of_perm perm
  | pop =>
    rcases pop_root inv with ⟨rfl, ran⟩ | ⟨r, rest, h, ys, rfl, ran, holds, mode, perm, root⟩
    · exact ⟨s, none, ran, .inl ⟨here, rfl⟩, [], inv⟩
    · simp only [Keeps, here, List.tail_cons] at keeps
      refine ⟨_, _, ran, .inr ⟨r, rfl, ?_⟩, ys, holds, mode, ?_, fun l there => ?_⟩
      · rw [here]
        exact inv.root r rfl
      · rw [pushed, ← inv.account, Multiset.coe_eq_coe.mpr perm, Multiset.coe_add,
          Multiset.coe_add, ← List.append_assoc]
        exact Multiset.coe_eq_coe.mpr (List.perm_append_singleton r (rest ++ s.popped))
      · rw [root] at there
        have first : First compare isMin l rest :=
          ⟨List.mem_of_getLast? there, keeps l there⟩
        exact first.of_perm perm

/-- A step behind which the top goes first is one that keeps it. -/
theorem step_forced (orders : Orders compare) (op : Op E) (inv : Inv compare isMin s all xs)
    {out : Option E} (ran : step compare op s = some (s', out))
    (queue : Queue compare isMin s' (pushed op all)) : Keeps compare isMin op s := by
  have here := inv.holds.elements
  cases op with
  | push x =>
    obtain ⟨h, ys, ran', holds, mode, perm, _, stays⟩ := push_root orders inv x
    rw [step, ran'] at ran
    cases ran
    simp only [Keeps, here]
    by_contra wrong
    obtain ⟨out, before⟩ := not_or.mp wrong
    simp only [not_forall, Bool.not_eq_false] at before
    obtain ⟨root, there, less⟩ := before
    have top : ys.head? = some root := by
      rw [stays out, List.head?_append, Option.mem_def.mp there]
      rfl
    have found := queue.top
    rw [holds.elements, holds.top, top] at found
    rcases found with ⟨_, none'⟩ | ⟨e, same, _, behind⟩
    · simp at none'
    · cases same
      have late := behind x (perm.mem_iff.mpr (by simp))
      rw [late] at less
      contradiction
  | pop =>
    simp only [Keeps, here]
    rcases pop_root inv with ⟨rfl, _⟩ | ⟨r, rest, h, ys, rfl, ran', holds, mode, perm, root⟩
    · intro l there
      contradiction
    · rw [ran'] at ran
      cases ran
      rw [List.tail_cons]
      intro l there x member
      have found := queue.top
      rw [holds.elements, holds.top, root, Option.mem_def.mp there] at found
      rcases found with ⟨_, none'⟩ | ⟨e, same, _, behind⟩
      · simp at none'
      · cases same
        exact behind x (perm.mem_iff.mpr member)

end

def difference (a b : Int) : Int := a - b

end MoonInWater.Common.Heap
