import MoonInWater.Avl.WellFormed
import Mathlib.Logic.Relation

/-! Runs of tree operations from the empty tree, with nodes whose owner fills them
with data before they enter the tree and again after they have left it. -/
namespace MoonInWater.Avl
open AvlTree Fuel
variable {P D U K : Type}

/-- The tree together with the data that each node carries. -/
structure State (P D : Type) where
  mem : Mem P
  data : P → D

/-- A compare function that orders the data by a key, against the key of the user data. -/
structure ThreeWay [LT K] (cmp : D → U → Int) (key : D → K) (sought : U → K) : Prop where
  below : cmp d u < 0 ↔ key d < sought u
  above : 0 < cmp d u ↔ sought u < key d

def State.key (key : D → K) (s : State P D) (p : P) : K := key (s.data p)

theorem ThreeWay.compares [LT K] {cmp : D → U → Int} {key : D → K} {sought : U → K}
    (threeWay : ThreeWay cmp key sought) (s : State P D) (u : U) :
    Compares (fun p => cmp (s.data p) u) (s.key key) (sought u) :=
  fun _ => ⟨threeWay.below, threeWay.above⟩

variable [DecidableEq P]

/-- The calls a program may make. -/
inductive Step (cmp : D → U → Int) (key : D → K) (sought : U → K) :
    State P D → State P D → Prop
  /-- The owner of a node outside the tree writes what it likes there. -/
  | write (p : P) (n : Node P) (d : D) : ¬ InTree s.mem p →
      Step cmp key sought s ⟨s.mem.set p n, Function.update s.data p d⟩
  | add (p : P) (u : U) : s.mem.node p = detached → ¬ InTree s.mem p →
      sought u = key (s.data p) →
      Returns (fun fuel => avlAdd2 fuel p (fun q => cmp (s.data q) u) s.mem) (m, q) →
      Step cmp key sought s ⟨m, s.data⟩
  | del (p : P) : InTree s.mem p → Returns (fun fuel => avlDel2 fuel p s.mem) (m, q) →
      Step cmp key sought s ⟨m, s.data⟩
  | replace (new old : P) : InTree s.mem old → s.mem.node new = detached → ¬ InTree s.mem new →
      key (s.data new) = key (s.data old) →
      Step cmp key sought s ⟨avlReplace2 new old s.mem, s.data⟩

/-- The tree of a state is well formed, and so is every call that may come next. -/
structure Sound [LT K] (cmp : D → U → Int) (key : D → K) (sought : U → K)
    (s : State P D) : Prop where
  wellFormed : ∃ t, WellFormed (s.key key) s.mem t
  add : ∀ p u, s.mem.node p = detached → ¬ InTree s.mem p → sought u = key (s.data p) →
    ∃ m q, Returns (fun fuel => avlAdd2 fuel p (fun q => cmp (s.data q) u) s.mem) (m, q)
  del : ∀ p, InTree s.mem p → ∃ m, Returns (fun fuel => avlDel2 fuel p s.mem) (m, p) ∧
    ¬ InTree m p ∧ m.node p = detached
  replace : ∀ new old, InTree s.mem old → s.mem.node new = detached → ¬ InTree s.mem new →
    key (s.data new) = key (s.data old) → InTree (avlReplace2 new old s.mem) new ∧
      ¬ InTree (avlReplace2 new old s.mem) old ∧ (avlReplace2 new old s.mem).node old = detached

section runs
variable [LinearOrder K] {cmp : D → U → Int} {key : D → K} {sought : U → K} {s s' : State P D}
  {t : NodeTree P}

theorem WellFormed.sound (threeWay : ThreeWay cmp key sought)
    (wellFormed : WellFormed (s.key key) s.mem t) : Sound cmp key sought s where
  wellFormed := ⟨t, wellFormed⟩
  add p u empty fresh same := by
    have compares := threeWay.compares s u
    rw [same] at compares
    rcases wellFormed.add empty fresh compares with ⟨m, _, _, _, run, _⟩ | ⟨q, _, _, run⟩
    · exact ⟨m, p, run⟩
    · exact ⟨s.mem, q, run⟩
  del p inTree := by
    obtain ⟨m, t', l, r, run, wellFormed', old, sequence, left⟩ :=
      wellFormed.del (wellFormed.inTree_iff.mp inTree)
    refine ⟨m, run, ?_, left⟩
    have nodup := wellFormed.represents.nodup
    rw [old, List.nodup_middle] at nodup
    rw [wellFormed'.inTree_iff, sequence]
    exact (List.nodup_cons.mp nodup).1
  replace new old inTree empty fresh same := by
    obtain ⟨t', l, r, wellFormed', before, sequence, left⟩ :=
      wellFormed.replace (wellFormed.inTree_iff.mp inTree) fresh same
    have nodup := wellFormed.represents.nodup
    rw [before, List.nodup_middle] at nodup
    rw [wellFormed'.inTree_iff, wellFormed'.inTree_iff, sequence]
    refine ⟨by simp, fun member => ?_, left⟩
    rcases List.mem_append.mp member with inLeft | here
    · exact (List.nodup_cons.mp nodup).1 (List.mem_append_left _ inLeft)
    · rcases List.mem_cons.mp here with rfl | inRight
      · exact fresh inTree
      · exact (List.nodup_cons.mp nodup).1 (List.mem_append_right _ inRight)

/-- Each call keeps some tree well formed. -/
theorem step_wellFormed (threeWay : ThreeWay cmp key sought) (step : Step cmp key sought s s')
    (wellFormed : WellFormed (s.key key) s.mem t) :
    ∃ t', WellFormed (s'.key key) s'.mem t' := by
  cases step with
  | write p n d fresh =>
    refine ⟨t, wellFormed.outside fresh fun q apart => ?_⟩
    simp only [State.key, Function.update_of_ne apart]
  | add p u empty fresh same run =>
    have compares := threeWay.compares s u
    rw [same] at compares
    rcases wellFormed.add empty fresh compares with
      ⟨m', t', _, _, run', wellFormed', _⟩ | ⟨q, _, _, run'⟩
    · cases run.unique run'
      exact ⟨t', wellFormed'⟩
    · cases run.unique run'
      exact ⟨t, wellFormed⟩
  | del p inTree run =>
    obtain ⟨m', t', _, _, run', wellFormed', _⟩ := wellFormed.del (wellFormed.inTree_iff.mp inTree)
    cases run.unique run'
    exact ⟨t', wellFormed'⟩
  | replace new old inTree empty fresh same =>
    obtain ⟨t', _, _, wellFormed', _⟩ :=
      wellFormed.replace (wellFormed.inTree_iff.mp inTree) fresh same
    exact ⟨t', wellFormed'⟩

/-- Every tree made from the empty one by calls of avl_add2, avl_del2 and avl_replace2
is balanced, ordered and linked both ways; each further call returns, and the node
that it takes out is detached. -/
theorem reachable_sound (threeWay : ThreeWay cmp key sought) (empty : s.mem.root = none)
    (run : Relation.ReflTransGen (Step cmp key sought) s s') : Sound cmp key sought s' := by
  have wellFormed : ∃ t, WellFormed (s'.key key) s'.mem t := by
    induction run with
    | refl => exact ⟨.nil, empty, trivial, trivial, .nil⟩
    | tail _ step ih =>
      obtain ⟨t, wellFormed⟩ := ih
      exact step_wellFormed threeWay step wellFormed
  obtain ⟨t, wellFormed⟩ := wellFormed
  exact wellFormed.sound threeWay

end runs

section numbers

/-- Nodes that carry their own address as a number. -/
def numbers (m : Mem Nat) : State Nat Int := ⟨m, fun p => p⟩

def difference (d u : Int) : Int := d - u

def addNumber (m : Mem Nat) (p : Nat) : Mem Nat :=
  ((avlAdd2 9 p (fun q => difference q p) m).getD (m, p)).1

def adding (l : List Nat) : Mem Nat := l.foldl addNumber ⟨fun _ => detached, none⟩

theorem addNumber_step {m : Mem Nat} {p : Nat} (t : NodeTree Nat)
    (shape : m.root = t.root ∧ Holds m none t ∧ t.toList.Nodup) (empty : m.node p = detached)
    (fresh : p ∉ t.toList)
    (run : ∀ k, avlAdd2 (k + 9) p (fun q => difference q p) m = some (addNumber m p, p)) :
    Step difference id id (numbers m) (numbers (addNumber m p)) := by
  refine .add p p empty ?_ rfl (.of_add 9 run)
  rwa [numbers, (represents_iff.mpr shape).inTree_iff]

/-- The third of three numbers in order rotates the second to the root. -/
theorem reachable_sound_rotation : Sound difference id id (numbers (adding [1, 2, 3])) := by
  have threeWay : ThreeWay difference id id := ⟨sub_neg, sub_pos⟩
  apply reachable_sound (s := numbers (adding [])) threeWay rfl
  have first := addNumber_step (m := adding []) (p := 1) .nil
    ⟨rfl, trivial, .nil⟩ rfl (by decide) fun _ => rfl
  have second := addNumber_step (m := adding [1]) (p := 2) (.node .nil 1 0 .nil)
    ⟨rfl, ⟨rfl, trivial, trivial⟩, by decide⟩ rfl (by decide) fun _ => rfl
  have third := addNumber_step (m := adding [1, 2]) (p := 3)
    (.node .nil 1 1 (.node .nil 2 0 .nil)) ⟨rfl, ⟨rfl, trivial, rfl, trivial, trivial⟩,
      by decide⟩ rfl (by decide) fun _ => rfl
  exact .tail (.tail (.tail .refl first) second) third

end numbers
end MoonInWater.Avl
