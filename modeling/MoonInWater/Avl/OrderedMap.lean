import MoonInWater.Avl.Reachable

/-! The tree as an ordered map: what each call does to the sequence of nodes, and
what search and traversal read from it. -/
namespace MoonInWater.Avl
open AvlTree Cells Fuel
variable {P S K : Type} {m : Mem P} {rest : Multiset (P × Node P)} {t : NodeTree P}
  {cmp : P → Int}

/-- Calls of `func` on one node after the other, up to the first non-zero result. -/
def visit (func : P → S → S × Int) : List P → S → S × Int
  | [], s => (s, 0)
  | p :: l, s =>
    let (s, ret) := func p s
    if ret ≠ 0 then (s, ret) else visit func l s

theorem visit_append (func : P → S → S × Int) (l r : List P) (s : S) :
    visit func (l ++ r) s =
      if (visit func l s).2 ≠ 0 then visit func l s else visit func r (visit func l s).1 := by
  induction l generalizing s with
  | nil => rfl
  | cons p l ih =>
    rw [List.cons_append, visit, visit]
    by_cases stop : (func p s).2 = 0
    · simp only [stop, ne_eq, not_true_eq_false, if_false, ih]
    · simp only [stop, ne_eq, not_false_eq_true, if_true]

theorem avlTraverMidorder_spec [DecidableEq P] (path : List (Frame P)) (func : P → S → S × Int)
    (represents : Represents m (plug path t) rest) (s : S) :
    ∀ fuel, t.height < fuel →
      avlTraverMidorder func fuel t.root m s = some (visit func t.toList s) := by
  induction t generalizing path s with
  | nil =>
    intro fuel enough
    obtain ⟨fuel, rfl⟩ := Nat.exists_eq_succ_of_ne_zero (Nat.ne_zero_of_lt enough)
    rfl
  | node l p b r left right =>
    intro fuel enough
    rw [NodeTree.height] at enough
    obtain ⟨fuel, rfl⟩ := Nat.exists_eq_succ_of_ne_zero (Nat.ne_zero_of_lt enough)
    have read := represents.child (s := .left)
    have first := left (⟨.left, p, b, r⟩ :: path) represents s fuel (by omega)
    have later := fun s => right (⟨.right, p, b, l⟩ :: path) represents s fuel (by omega)
    rw [NodeTree.root, avlTraverMidorder, read]
    simp only [nodeOf, first, later, NodeTree.toList, visit_append, visit, Option.bind_eq_bind,
      Option.bind_some]
    by_cases stop : (visit func l.toList s).2 ≠ 0
    · rw [if_pos stop, if_pos stop]
      rfl
    · rw [if_neg stop, if_neg stop]
      exact (apply_ite some ..).symm

/-- The search keeps the last node, in the order of the sequence, that is not above. -/
theorem avlSearch2_spec [DecidableEq P] (path : List (Frame P))
    (represents : Represents m (plug path t) rest)
    (splits : Splits cmp t.toList) (prev : Option P) :
    ∀ fuel, t.height < fuel → avlSearch2 cmp fuel prev t.root m =
      some ((t.toList.reverse.find? fun p => cmp p ≤ 0).or prev) := by
  induction t generalizing path prev with
  | nil =>
    intro fuel enough
    obtain ⟨fuel, rfl⟩ := Nat.exists_eq_succ_of_ne_zero (Nat.ne_zero_of_lt enough)
    rfl
  | node l p b r left right =>
    intro fuel enough
    rw [NodeTree.height] at enough
    obtain ⟨fuel, rfl⟩ := Nat.exists_eq_succ_of_ne_zero (Nat.ne_zero_of_lt enough)
    rw [Splits, NodeTree.toList, List.pairwise_append, List.pairwise_cons] at splits
    have read := represents.child (s := .left)
    have inLeft := fun prev => left (⟨.left, p, b, r⟩ :: path) represents splits.1 prev
      fuel (by omega)
    have inRight := fun prev => right (⟨.right, p, b, l⟩ :: path) represents
      splits.2.1.2 prev fuel (by omega)
    have none_right : 0 ≤ cmp p → r.toList.reverse.find? (fun p => cmp p ≤ 0) = none := by
      intro high
      apply List.find?_eq_none.mpr
      intro q member low
      have := splits.2.1.1 q (List.mem_reverse.mp member) (of_decide_eq_true low)
      omega
    rw [NodeTree.root, avlSearch2, read]
    simp only [nodeOf, NodeTree.toList, List.reverse_append, List.reverse_cons, List.find?_append,
      List.find?_singleton]
    rcases Int.lt_trichotomy (cmp p) 0 with below | equal | above
    · simp [show ¬ 0 < cmp p by omega, below, Int.le_of_lt below, inRight]
    · simp [equal, none_right (by omega)]
    · simp [above, show ¬ cmp p ≤ 0 by omega, none_right (by omega), inLeft]

/-- What the calls do, seen from the sequence of the nodes. -/
structure OrderedMap [DecidableEq P] [LinearOrder K] (key : P → K) (m : Mem P) (t : NodeTree P) :
    Prop where
  add : ∀ p cmp, m.node p = detached → ¬ InTree m p → Compares cmp key (key p) →
    (∀ q ∈ t.toList, key q ≠ key p) → ∃ m' t' l r,
      Returns (fun fuel => avlAdd2 fuel p cmp m) (m', p) ∧ WellFormed key m' t' ∧
      t.toList = l ++ r ∧ t'.toList = l ++ p :: r
  addPresent : ∀ p cmp, ∀ q ∈ t.toList, Compares cmp key (key q) →
    Returns (fun fuel => avlAdd2 fuel p cmp m) (m, q)
  del : ∀ p ∈ t.toList, ∃ m' t' l r, Returns (fun fuel => avlDel2 fuel p m) (m', p) ∧
    WellFormed key m' t' ∧ t.toList = l ++ p :: r ∧ t'.toList = l ++ r
  search : ∀ k cmp, Compares cmp key k → ∃ found,
    Returns (fun fuel => avlSearch2 cmp fuel none m.root m) found ∧
    (found = none ↔ ∀ q ∈ t.toList, k < key q) ∧
    ∀ p, found = some p → p ∈ t.toList ∧ key p ≤ k ∧
      ∀ q ∈ t.toList, key q ≤ k → key q ≤ key p
  traver : ∀ (S : Type) (func : P → S → S × Int) (s : S),
    Returns (fun fuel => avlTraverMidorder func fuel m.root m s) (visit func t.toList s)

section map
variable [LinearOrder K] {key : P → K} {k : K}

theorem Compares.notAbove (compares : Compares cmp key k) : cmp p ≤ 0 ↔ key p ≤ k := by
  rw [← Int.not_lt, ← not_lt, (compares p).2]

/-- The node that the search ends with has the greatest key not above the sought one. -/
theorem find_greatest (compares : Compares cmp key k) {sequence : List P}
    (ordered : sequence.Pairwise fun p q => key p < key q)
    (found : sequence.reverse.find? (fun p => cmp p ≤ 0) = some p) :
    p ∈ sequence ∧ key p ≤ k ∧ ∀ q ∈ sequence, key q ≤ k → key q ≤ key p := by
  obtain ⟨low, later, earlier, split, beyond⟩ := List.find?_eq_some_iff_append.mp found
  have whole : sequence = earlier.reverse ++ p :: later.reverse := by
    rw [← List.reverse_reverse sequence, split]
    simp
  rw [whole, List.pairwise_append, List.pairwise_cons] at ordered
  refine ⟨by simp [whole], compares.notAbove.mp (of_decide_eq_true low), fun q member high => ?_⟩
  rw [whole] at member
  rcases List.mem_append.mp member with before | rest
  · exact le_of_lt (ordered.2.2 q before p (List.mem_cons_self ..))
  · rcases List.mem_cons.mp rest with rfl | after
    · exact le_rfl
    · have := beyond q (List.mem_reverse.mp after)
      simp [compares.notAbove.mpr high] at this

theorem WellFormed.key_injective (wellFormed : WellFormed key m t) (first : p ∈ t.toList)
    (second : q ∈ t.toList) (same : key p = key q) : p = q := by
  have nodup : (t.toList.map key).Nodup :=
    List.pairwise_map.mpr (wellFormed.ordered.imp fun less => ne_of_lt less)
  exact List.inj_on_of_nodup_map nodup first second same

variable [DecidableEq P]

theorem WellFormed.addPresent (wellFormed : WellFormed key m t) {q : P} (member : q ∈ t.toList)
    (compares : Compares cmp key (key q)) (p : P) :
    Returns (fun fuel => avlAdd2 fuel p cmp m) (m, q) := by
  have splits := compares.splits wellFormed.ordered
  have equal := compares.zero.mpr (rfl : key q = key q)
  have top : Between cmp [] := by simp [Between, before, after]
  rcases addDescend_spec [] wellFormed.represents splits top with
    ⟨path, whole, between, _⟩ | ⟨q', member', equal', descend⟩
  · change plug path .nil = t at whole
    rw [← whole, toList_plug] at member
    rcases List.mem_append.mp member with low | high
    · have := between.1 q low
      omega
    · have := between.2 q high
      omega
  · obtain rfl := wellFormed.key_injective member' member (compares.zero.mp equal')
    refine ⟨t.height, fun fuel enough => ?_⟩
    have down : addDescend cmp fuel .root none m = _ := descend fuel enough
    simp only [avlAdd2, down, Option.bind_eq_bind, Option.bind_some]

theorem WellFormed.search (wellFormed : WellFormed key m t) (compares : Compares cmp key k) :
    ∃ found, Returns (fun fuel => avlSearch2 cmp fuel none m.root m) found ∧
      (found = none ↔ ∀ q ∈ t.toList, k < key q) ∧
      ∀ p, found = some p → p ∈ t.toList ∧ key p ≤ k ∧
        ∀ q ∈ t.toList, key q ≤ k → key q ≤ key p := by
  have run := avlSearch2_spec [] wellFormed.represents
    (compares.splits wellFormed.ordered) none
  rw [Option.or_none, ← wellFormed.root] at run
  refine ⟨_, ⟨_, run⟩, ?_, fun p => find_greatest compares wellFormed.ordered⟩
  simp [compares.notAbove]

/-- The tree is an ordered map. -/
theorem orderedMap (wellFormed : WellFormed key m t) : OrderedMap key m t where
  add p cmp empty fresh compares absent := by
    rcases wellFormed.add empty fresh compares with added | ⟨q, member, same, _⟩
    · exact added
    · exact absurd same (absent q member)
  addPresent p cmp q member compares := wellFormed.addPresent member compares p
  del p member := by
    obtain ⟨m', t', l, r, run, wellFormed', old, sequence, _⟩ := wellFormed.del member
    exact ⟨m', t', l, r, run, wellFormed', old, sequence⟩
  search k cmp compares := wellFormed.search compares
  traver S func s := by
    have run := avlTraverMidorder_spec [] func wellFormed.represents s
    rw [← wellFormed.root] at run
    exact ⟨_, run⟩

end map

/-- The map of the numbers 1, 2 and 3. -/
theorem orderedMap_numbers : OrderedMap id (adding [1, 2, 3])
    (.node (.node .nil 1 0 .nil) 2 0 (.node .nil 3 0 .nil)) :=
  orderedMap ⟨rfl, ⟨rfl, ⟨rfl, trivial, trivial⟩, rfl, trivial, trivial⟩,
    by simp [NodeTree.Balanced, NodeTree.height], by decide⟩

end MoonInWater.Avl
