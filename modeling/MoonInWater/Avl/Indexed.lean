import MoonInWater.Avl.OrderedMap

/-! The tree as the index of a component that owns all nodes: a sequence of them is
in the tree, in the order of their keys, and the others are detached. -/
namespace MoonInWater.Avl
open AvlTree Cells Fuel
variable {P K : Type} {m : Mem P} {sequence : List P}

structure Indexed [LT K] (key : P → K) (m : Mem P) (sequence : List P) : Prop where
  tree : ∃ t, WellFormed key m t ∧ t.toList = sequence
  detached : ∀ p ∉ sequence, m.node p = detached

section reading
variable [LinearOrder K] {key : P → K}

theorem Indexed.inTree_iff (indexed : Indexed key m sequence) : InTree m p ↔ p ∈ sequence := by
  obtain ⟨t, wellFormed, rfl⟩ := indexed.tree
  exact wellFormed.inTree_iff

theorem Indexed.ordered (indexed : Indexed key m sequence) :
    sequence.Pairwise fun p q => key p < key q := by
  obtain ⟨t, wellFormed, rfl⟩ := indexed.tree
  exact wellFormed.ordered

theorem Indexed.injective (indexed : Indexed key m sequence) (first : p ∈ sequence)
    (second : q ∈ sequence) (same : key p = key q) : p = q := by
  obtain ⟨t, wellFormed, rfl⟩ := indexed.tree
  exact wellFormed.key_injective first second same

theorem Indexed.root_none (indexed : Indexed key m sequence) : m.root = none ↔ sequence = [] := by
  obtain ⟨t, wellFormed, rfl⟩ := indexed.tree
  rw [wellFormed.root]
  cases t <;> simp [NodeTree.root, NodeTree.toList]

/-- Keys of nodes outside the tree do not matter. -/
theorem Indexed.rekey {key' : P → K} (indexed : Indexed key m sequence)
    (same : ∀ p ∈ sequence, key' p = key p) : Indexed key' m sequence where
  tree := by
    obtain ⟨t, wellFormed, rfl⟩ := indexed.tree
    refine ⟨t, ⟨wellFormed.root, wellFormed.holds, wellFormed.balanced, ?_⟩, rfl⟩
    refine wellFormed.ordered.imp_of_mem fun {p q} first second less => ?_
    rwa [same p first, same q second]
  detached := indexed.detached

theorem indexed_nil (empty : m.root = none) (free : ∀ p, m.node p = Avl.detached) :
    Indexed key m [] where
  tree := ⟨.nil, ⟨empty, trivial, trivial, List.Pairwise.nil⟩, rfl⟩
  detached p _ := free p

/-- avl_leftest_node finds the first of the sequence. -/
theorem Indexed.leftest [DecidableEq P] (indexed : Indexed key m sequence) :
    Returns (fun fuel => avlLeftestNode fuel m.root m) sequence.head? := by
  obtain ⟨t, wellFormed, rfl⟩ := indexed.tree
  rw [wellFormed.root]
  cases root : t.root with
  | none =>
    obtain rfl : t = .nil := by cases t with
      | nil => rfl
      | node => simp [NodeTree.root] at root
    exact ⟨0, fun _ _ => rfl⟩
  | some x =>
    obtain ⟨spine, q, b, c, atEnd, whole, run⟩ :=
      sideMost_spec .left [] root wellFormed.represents
    refine ⟨t.height, fun fuel enough => ?_⟩
    change (sideMost .left fuel x m).map some = _
    rw [run fuel (Nat.le_of_lt enough), whole, toList_plug, atEnd.before]
    rfl

end reading

section writing
variable [LinearOrder K] {key : P → K} {cmp : P → Int} [DecidableEq P]

/-- The addition of a node writes to no node outside the tree. -/
theorem Indexed.add (indexed : Indexed key m sequence) (fresh : p ∉ sequence)
    (compares : Compares cmp key (key p)) :
    (∃ m' l r, Returns (fun fuel => avlAdd2 fuel p cmp m) (m', p) ∧ sequence = l ++ r ∧
      Indexed key m' (l ++ p :: r)) ∨
    ∃ q ∈ sequence, key q = key p ∧ Returns (fun fuel => avlAdd2 fuel p cmp m) (m, q) := by
  have outside := indexed.detached
  obtain ⟨t, wellFormed, rfl⟩ := indexed.tree
  have alone := outside p fresh
  rcases wellFormed.add alone (wellFormed.inTree_iff.not.mpr fresh) compares with
    ⟨m', t', l, r, run, wellFormed', old, new⟩ | ⟨q, member, same, run⟩
  · refine .inl ⟨m', l, r, run, old, ⟨t', wellFormed', new⟩, fun q other => ?_⟩
    have apart : q ≠ p := by
      rintro rfl
      simp at other
    have free : q ∉ t.toList := by
      rw [old]
      simp only [List.mem_append, List.mem_cons, not_or] at other ⊢
      exact ⟨other.1, other.2.2⟩
    have beside := (wellFormed.represents.extend free (by simp)).extend fresh fun x member => by
      rw [add_zero, cell, Multiset.mem_singleton] at member
      rw [member]
      exact apart
    rw [alone] at beside
    rcases avlAdd2_spec beside wellFormed.balanced (compares.splits wellFormed.ordered) with
      ⟨m'', t'', _, _, run', represents, _⟩ | ⟨_, _, _, run'⟩
    · obtain rfl : m' = m'' := congrArg Prod.fst (run.unique ⟨_, run'⟩)
      exact ((represents.owns.reorder (add_left_comm _ _ _)).read).trans (outside q free)
    · obtain rfl : m' = m := congrArg Prod.fst (run.unique ⟨_, run'⟩)
      exact outside q free
  · exact .inr ⟨q, member, same, run⟩

omit [DecidableEq P] in
/-- A node has one place in the order. -/
theorem Indexed.place (indexed : Indexed key m (l ++ p :: r))
    (again : l ++ p :: r = l' ++ p :: r') : l = l' ∧ r = r' := by
  obtain ⟨t, wellFormed, sequence⟩ := indexed.tree
  have nodup := wellFormed.represents.nodup
  rw [sequence, List.nodup_middle, List.nodup_cons, List.mem_append, not_or] at nodup
  obtain ⟨same, _, same'⟩ := (List.append_cons_inj_of_notMem nodup.1.1 nodup.1.2).mp again
  exact ⟨same, same'⟩

/-- The deletion of a node detaches it and writes to no node outside the tree. -/
theorem Indexed.del (indexed : Indexed key m (l ++ p :: r)) :
    ∃ m', Returns (fun fuel => avlDel2 fuel p m) (m', p) ∧ Indexed key m' (l ++ r) := by
  have outside := indexed.detached
  obtain ⟨t, wellFormed, sequence⟩ := indexed.tree
  have member : p ∈ t.toList := by simp [sequence]
  obtain ⟨m', t', l', r', run, wellFormed', old, new, alone⟩ := wellFormed.del member
  obtain ⟨rfl, rfl⟩ := indexed.place (sequence.symm.trans old)
  refine ⟨m', run, ⟨t', wellFormed', new⟩, fun q other => ?_⟩
  rw [← sequence] at outside
  by_cases same : q = p
  · exact same ▸ alone
  · have free : q ∉ t.toList := by
      rw [old]
      simp only [List.mem_append, List.mem_cons, not_or] at other ⊢
      exact ⟨other.1, same, other.2⟩
    obtain ⟨m'', t'', _, _, run', represents, _⟩ := avlDel2_spec
      (wellFormed.represents.extend free (by simp)) wellFormed.balanced member
    obtain rfl : m' = m'' := congrArg Prod.fst (run.unique ⟨_, run'⟩)
    have owns := represents.owns
    rw [← add_assoc, add_comm (cells none t''), add_assoc, add_left_comm, ← add_assoc] at owns
    have read : m'.node q = m.node q := by
      refine owns.holds (q, m.node q) ?_
      simp [cell]
    exact read.trans (outside q free)

theorem avlDel2_detached (alone : m.node p = detached) :
    Returns (fun fuel => avlDel2 fuel p m) ({ m with root := none }, p) := by
  refine .of_add 1 fun k => ?_
  have leaf : delLeaf (k + 1) p m = some (p, none, none) := by simp [delLeaf, alone, detached]
  have back : delBack (k + 1) p m = some m := by simp [delBack, alone, detached]
  simp [avlDel2, leaf, back, alone, detached, Mem.set]

/-- A replaced node leaves its place in the order to the new one. -/
theorem Indexed.replace (indexed : Indexed key m (l ++ p :: r)) (fresh : q ∉ l ++ p :: r)
    (same : key q = key p) : Indexed key (avlReplace2 q p m) (l ++ q :: r) := by
  obtain ⟨t, wellFormed, sequence⟩ := indexed.tree
  have member : p ∈ t.toList := by simp [sequence]
  have free : q ∉ t.toList := by rwa [sequence]
  have outside := wellFormed.inTree_iff.not.mpr free
  obtain ⟨t', l', r', wellFormed', old, new, alone⟩ := wellFormed.replace member outside same
  obtain ⟨rfl, rfl⟩ := indexed.place (sequence.symm.trans old)
  refine ⟨⟨t', wellFormed', new⟩, fun x other => ?_⟩
  by_cases here : x = p
  · exact here ▸ alone
  · simp only [List.mem_append, List.mem_cons, not_or] at other
    have away : x ∉ t.toList := by
      rw [sequence]
      simp only [List.mem_append, List.mem_cons, not_or]
      exact ⟨other.1, here, other.2.2⟩
    have beside := (wellFormed.represents.extend away (by simp)).extend free fun y inRest => by
      rw [add_zero, cell, Multiset.mem_singleton] at inRest
      rw [inRest]
      exact other.2.1
    obtain ⟨t'', stale, represents, _⟩ :=
      replaceAvl_spec beside wellFormed.balanced (t := t) sequence
    have owns := (detach represents).owns
    have read : (avlReplace2 q p m).node x = m.node x := by
      refine owns.holds (x, m.node x) ?_
      simp [cell]
    exact read.trans (indexed.detached x (sequence ▸ away))

end writing
end MoonInWater.Avl
