import MoonInWater.Avl.Insert
import MoonInWater.Avl.Delete
import MoonInWater.Lib.Fuel

/-! The representation invariant of the tree, and that each operation keeps it. -/
namespace MoonInWater.Avl
open AvlTree Cells Fuel
variable {P K : Type} {m : Mem P} {t : NodeTree P}

/-- Each node of the tree lies in memory with its balance, its children and the
node that holds it as its parent. -/
def Holds (m : Mem P) (parent : Option P) : NodeTree P → Prop
  | .nil => True
  | .node l p b r =>
    m.node p = ⟨b, l.root, r.root, parent⟩ ∧ Holds m (some p) l ∧ Holds m (some p) r

/-- The AVL representation invariant, for a key of each node. -/
structure WellFormed [LT K] (key : P → K) (m : Mem P) (t : NodeTree P) : Prop where
  root : m.root = t.root
  holds : Holds m none t
  balanced : t.Balanced
  ordered : t.toList.Pairwise fun p q => key p < key q

theorem holds_iff : Holds m parent t ↔ ∀ x ∈ cells parent t, m.node x.1 = x.2 := by
  induction t generalizing parent with
  | nil => simp [Holds, cells]
  | node l p b r left right =>
    simp only [Holds, left, right, cells, cell, Multiset.mem_add, Multiset.mem_singleton]
    constructor
    · rintro ⟨here, inLeft, inRight⟩ x (rfl | member | member)
      · exact here
      · exact inLeft x member
      · exact inRight x member
    · intro all
      exact ⟨all _ (.inl rfl), fun x member => all x (.inr (.inl member)),
        fun x member => all x (.inr (.inr member))⟩

theorem represents_iff : Represents m t 0 ↔ m.root = t.root ∧ Holds m none t ∧ t.toList.Nodup := by
  rw [holds_iff]
  constructor
  · intro represents
    exact ⟨represents.root, represents.owns.left.holds, represents.nodup⟩
  · rintro ⟨root, holds, nodup⟩
    refine ⟨⟨fun x member => holds x (by rwa [add_zero] at member), ?_⟩, root⟩
    rwa [add_zero, cells_addresses, Multiset.coe_nodup]

theorem Represents.forget {rest : Multiset (P × Node P)} (represents : Represents m t rest) :
    Represents m t 0 := ⟨by rw [add_zero]; exact represents.owns.left, represents.root⟩

/-- Any node outside the tree can stand beside it. -/
theorem Represents.extend {rest : Multiset (P × Node P)} (represents : Represents m t rest)
    (fresh : p ∉ t.toList) (beside : ∀ x ∈ rest, x.1 ≠ p) :
    Represents m t (cell p (m.node p) + rest) where
  owns := by
    have more := represents.owns.extend (p := p) fun x member => by
      rcases Multiset.mem_add.mp member with inTree | other
      · exact fun same => fresh (same ▸ cells_mem x inTree)
      · exact beside x other
    exact more.reorder (add_left_comm _ _ _)
  root := represents.root

section ordered
variable [Preorder K] {key : P → K}

theorem WellFormed.represents (wellFormed : WellFormed key m t) : Represents m t 0 := by
  rw [represents_iff]
  exact ⟨wellFormed.root, wellFormed.holds,
    wellFormed.ordered.imp fun {_ _} less same => by subst same; exact absurd less (lt_irrefl _)⟩

theorem Represents.wellFormed {rest : Multiset (P × Node P)} (represents : Represents m t rest)
    (balanced : t.Balanced) (ordered : t.toList.Pairwise fun p q => key p < key q) :
    WellFormed key m t := by
  have alone := represents.forget
  rw [represents_iff] at alone
  obtain ⟨root, holds, _⟩ := alone
  exact ⟨root, holds, balanced, ordered⟩

end ordered

/-- The nodes that the links lead to from the root pointer. -/
inductive InTree (m : Mem P) : P → Prop
  | root : m.root = some p → InTree m p
  | child (side : Side) : InTree m q → (m.node q).child side = some p → InTree m p

theorem Represents.inTree_path (represents : Represents m (plug path (.node l p b r)) rest) :
    InTree m p := by
  induction path generalizing l p b r with
  | nil => exact .root represents.root
  | cons f path ih =>
    obtain ⟨side, q, c, sibling⟩ := f
    have whole : plug (⟨side, q, c, sibling⟩ :: path) (.node l p b r) =
      plug path (NodeTree.join side (.node l p b r) q c sibling) := rfl
    have above : InTree m q := by
      rw [whole] at represents
      cases side with
      | left => exact ih represents
      | right => exact ih represents
    have read := (represents_frame.mp represents).1.read
    refine .child side above ?_
    rw [read, nodeOf_child]
    rfl

/-- The nodes of the sequence are those that can be reached from the root. -/
theorem Represents.inTree_iff {rest : Multiset (P × Node P)} (represents : Represents m t rest) :
    InTree m p ↔ p ∈ t.toList := by
  constructor
  · intro inTree
    induction inTree with
    | root first =>
      rw [represents.root] at first
      exact NodeTree.root_mem first
    | child side _ below member =>
      obtain ⟨path, l, b, r, rfl⟩ := exists_plug member
      have owns := (represents_plug.mp represents).1
      rw [cells_node, add_assoc] at owns
      rw [owns.read] at below
      rw [toList_plug]
      cases side with
      | left => simp [NodeTree.toList, NodeTree.root_mem below]
      | right => simp [NodeTree.toList, NodeTree.root_mem below]
  · intro member
    obtain ⟨path, l, b, r, rfl⟩ := exists_plug member
    exact represents.inTree_path

theorem WellFormed.inTree_iff [Preorder K] {key : P → K} (wellFormed : WellFormed key m t) :
    InTree m p ↔ p ∈ t.toList := wellFormed.represents.inTree_iff

/-- The comparison of one call orders the nodes by their keys around `k`. -/
def Compares [LT K] (cmp : P → Int) (key : P → K) (k : K) : Prop :=
  ∀ p, (cmp p < 0 ↔ key p < k) ∧ (0 < cmp p ↔ k < key p)

section operations
variable [LinearOrder K] {key : P → K} {k : K} {cmp : P → Int}

theorem Compares.zero (compares : Compares cmp key k) : cmp p = 0 ↔ key p = k := by
  obtain ⟨below, above⟩ := compares p
  constructor
  · intro equal
    have notBelow := mt below.mpr (by omega)
    have notAbove := mt above.mpr (by omega)
    exact le_antisymm (not_lt.mp notAbove) (not_lt.mp notBelow)
  · intro equal
    have notBelow := mt below.mp (by rw [equal]; exact lt_irrefl k)
    have notAbove := mt above.mp (by rw [equal]; exact lt_irrefl k)
    omega

theorem Compares.splits (compares : Compares cmp key k) {sequence : List P}
    (ordered : sequence.Pairwise fun p q => key p < key q) : Splits cmp sequence := by
  apply List.Pairwise.imp _ ordered
  intro p q less notAbove
  exact (compares p).1.mpr (less.trans_le (not_lt.mp (mt (compares q).2.mpr (by omega))))

variable [DecidableEq P]

theorem WellFormed.add {new : P} (wellFormed : WellFormed key m t)
    (detached : m.node new = detached) (fresh : ¬ InTree m new)
    (compares : Compares cmp key (key new)) :
    (∃ m' t' l r, Returns (fun fuel => avlAdd2 fuel new cmp m) (m', new) ∧
      WellFormed key m' t' ∧ t.toList = l ++ r ∧ t'.toList = l ++ new :: r) ∨
    ∃ p ∈ t.toList, key p = key new ∧ Returns (fun fuel => avlAdd2 fuel new cmp m) (m, p) := by
  rw [wellFormed.inTree_iff] at fresh
  have beside := wellFormed.represents.extend fresh (by simp)
  rw [detached] at beside
  rcases avlAdd2_spec beside wellFormed.balanced (compares.splits wellFormed.ordered) with
    ⟨m', t', l, r, run, represents, balanced, old, sequence, lows, highs⟩ | ⟨p, member, equal, run⟩
  · refine .inl ⟨m', t', l, r, ⟨_, run⟩, represents.wellFormed balanced ?_, old, sequence⟩
    have ordered := wellFormed.ordered
    rw [old, List.pairwise_append] at ordered
    rw [sequence, List.pairwise_append, List.pairwise_cons]
    have above : ∀ q ∈ r, key new < key q := fun q member => (compares q).2.mp (highs q member)
    refine ⟨ordered.1, ⟨above, ordered.2.1⟩, fun p inLow q rest => ?_⟩
    have below := (compares p).1.mp (lows p inLow)
    rcases List.mem_cons.mp rest with rfl | inHigh
    · exact below
    · exact below.trans (above q inHigh)
  · exact .inr ⟨p, member, compares.zero.mp equal, _, run⟩

theorem WellFormed.del (wellFormed : WellFormed key m t) (member : p ∈ t.toList) :
    ∃ m' t' l r, Returns (fun fuel => avlDel2 fuel p m) (m', p) ∧ WellFormed key m' t' ∧
      t.toList = l ++ p :: r ∧ t'.toList = l ++ r ∧ m'.node p = detached := by
  obtain ⟨m', t', l, r, run, represents, balanced, old, sequence⟩ :=
    avlDel2_spec wellFormed.represents wellFormed.balanced member
  refine ⟨m', t', l, r, ⟨_, run⟩, represents.wellFormed balanced ?_, old, sequence, ?_⟩
  · have ordered := wellFormed.ordered
    rw [old] at ordered
    rw [sequence]
    exact ordered.sublist (List.Sublist.append_left (List.sublist_cons_self p r) l)
  · exact (represents.owns.reorder (add_left_comm _ _ _)).read

theorem WellFormed.replace {new old : P} (wellFormed : WellFormed key m t)
    (member : old ∈ t.toList) (fresh : ¬ InTree m new) (equal : key new = key old) :
    ∃ t' l r, WellFormed key (avlReplace2 new old m) t' ∧ t.toList = l ++ old :: r ∧
      t'.toList = l ++ new :: r ∧ (avlReplace2 new old m).node old = detached := by
  rw [wellFormed.inTree_iff] at fresh
  obtain ⟨l, r, sequence⟩ := List.append_of_mem member
  obtain ⟨t', stale, represents, balanced, replaced⟩ := replaceAvl_spec
    (wellFormed.represents.extend fresh (by simp)) wellFormed.balanced sequence
  have detaches := detach represents
  refine ⟨t', l, r, detaches.wellFormed balanced ?_, sequence, replaced, ?_⟩
  · have ordered := wellFormed.ordered
    rw [sequence, List.pairwise_append, List.pairwise_cons] at ordered
    rw [replaced, List.pairwise_append, List.pairwise_cons, equal]
    refine ⟨ordered.1, ordered.2.1, fun p inLow q rest => ?_⟩
    rcases List.mem_cons.mp rest with rfl | inHigh
    · rw [equal]
      exact ordered.2.2 p inLow old (List.mem_cons_self ..)
    · exact ordered.2.2 p inLow q (List.mem_cons_of_mem _ inHigh)
  · exact (detaches.owns.reorder (add_left_comm _ _ _)).read

/-- Whatever is written to a node outside the tree leaves the tree as it is. -/
theorem WellFormed.outside {n : Node P} {key' : P → K} (wellFormed : WellFormed key m t)
    (fresh : ¬ InTree m p) (same : ∀ q, q ≠ p → key' q = key q) :
    WellFormed key' (m.set p n) t := by
  rw [wellFormed.inTree_iff] at fresh
  have beside := wellFormed.represents.extend fresh (by simp)
  have owns := set_owns (beside.owns.reorder (add_left_comm _ _ _)) n
  have kept : ∀ q ∈ t.toList, key' q = key q := fun q member => same q fun equal =>
    fresh (equal ▸ member)
  refine Represents.wellFormed ⟨owns.reorder (add_left_comm _ _ _), wellFormed.root⟩
    wellFormed.balanced ?_
  refine wellFormed.ordered.imp_of_mem fun {p q} first second less => ?_
  rwa [kept p first, kept q second]

end operations
end MoonInWater.Avl
