import MoonInWater.Avl.Balance

/-! avl_add2: the descent to an empty slot, the new leaf, and the way back. -/
namespace MoonInWater.Avl
open AvlTree Cells
variable {P : Type} [DecidableEq P] {m : Mem P} {rest : Multiset (P × Node P)}

/-- One turn of the way back, read off the tree. -/
theorem addBack_frame {f : Frame P} {path : List (Frame P)} {t : NodeTree P}
    (represents : Represents m (plug (f :: path) t) rest) (root : t.root = some x) (fuel : Nat) :
    addBack (fuel + 1) x m =
      let b := f.balance + f.side.sign
      let m' := m.setBalance f.p b
      if b = 0 then some m'
      else if b = 1 ∨ b = -1 then addBack fuel f.p m'
      else if b = 2 ∨ b = -2 then (avlBalance f.p m').map Prod.fst
      else some m' := by
  have sign : (if (m.node f.p).left = some x then -1 else 1) = f.side.sign := by
    simp only [represents.frame_left root]
    cases f.side <;> rfl
  have new := (represents.setBalance_frame (f.balance + f.side.sign)).frame_balance
  simp only at new
  rw [addBack, represents.parent_root root]
  simp only [parentOf_cons, sign, represents.frame_balance, new]

/-- The way back after a subtree, a new leaf or one whose root leans, has grown by
one restores the balances. -/
theorem addBack_spec {path : List (Frame P)} {t : NodeTree P} (root : t.root = some x)
    (balanced : t.Balanced) (around : BalancedAround path (t.height - 1))
    (leans : t.balance ≠ 0 ∨ t.height = 1)
    (represents : Represents m (plug path t) rest) :
    ∃ m' t', (∀ fuel, path.length < fuel → addBack fuel x m = some m') ∧
      Represents m' t' rest ∧ t'.Balanced ∧ t'.toList = (plug path t).toList := by
  induction path generalizing m t x with
  | nil =>
    refine ⟨m, t, fun fuel enough => ?_, represents, balanced, rfl⟩
    obtain ⟨fuel, rfl⟩ := Nat.exists_eq_succ_of_ne_zero (Nat.ne_of_gt enough)
    rw [addBack, represents.parent_root root]
    rfl
  | cons f path ih =>
    obtain ⟨⟨siblingBalanced, balance, low, high⟩, around⟩ := around
    have turn := addBack_frame represents root
    have tall := NodeTree.height_pos root
    have set := represents.setBalance_frame (f.balance + f.side.sign)
    have positive : ((t.height - 1 : Nat) : Int) = t.height - 1 := by omega
    rw [positive] at balance
    generalize b_eq : f.balance + f.side.sign = b at turn set
    simp only at turn
    have even : b = f.side.sign * (t.height - f.sibling.height) := by
      rcases sign_cases f.side with one | one <;> rw [one] at balance b_eq ⊢ <;> omega
    have range : b = 0 ∨ (b = 1 ∨ b = -1) ∨ b = 2 * f.side.sign := by
      rcases sign_cases f.side with one | one <;> rw [one] at b_eq ⊢ <;> omega
    have sequence :
        (plug path (t.join f.side f.p b f.sibling)).toList = (plug (f :: path) t).toList :=
      toList_plug_congr path (NodeTree.toList_join ..)
    replace set : Represents _ (plug path (t.join f.side f.p b f.sibling)) rest := set
    rcases range with zero | one | two
    · have level : t.height = f.sibling.height := by
        rcases sign_cases f.side with one | one <;> rw [one] at even <;> omega
      have same : max (t.height - 1) f.sibling.height = max t.height f.sibling.height := by omega
      rw [same, ← NodeTree.height_join f.side t f.p b] at around
      have joined : (t.join f.side f.p b f.sibling).Balanced :=
        NodeTree.balanced_join.mpr ⟨balanced, siblingBalanced, even, by omega⟩
      refine ⟨m.setBalance f.p b, _, fun fuel enough => ?_, set,
        balanced_plug.mpr ⟨joined, around⟩, sequence⟩
      obtain ⟨fuel, rfl⟩ := Nat.exists_eq_succ_of_ne_zero (Nat.ne_zero_of_lt enough)
      rw [turn, if_pos zero]
    · have taller : t.height = f.sibling.height + 1 := by
        rcases sign_cases f.side with sign | sign <;> rw [sign] at even b_eq <;> omega
      have nonzero : b ≠ 0 := by omega
      have joined : (t.join f.side f.p b f.sibling).Balanced :=
        NodeTree.balanced_join.mpr ⟨balanced, siblingBalanced, even, by omega⟩
      have same : max (t.height - 1) f.sibling.height + 1 =
          (t.join f.side f.p b f.sibling).height - 1 := by
        rw [NodeTree.height_join]
        omega
      rw [same] at around
      obtain ⟨m', t', run, represents', balanced', toList⟩ :=
        ih (NodeTree.root_join ..) joined around (.inl (by rwa [NodeTree.balance_join])) set
      refine ⟨m', t', fun fuel enough => ?_, represents', balanced', toList.trans sequence⟩
      obtain ⟨fuel, rfl⟩ := Nat.exists_eq_succ_of_ne_zero (Nat.ne_zero_of_lt enough)
      rw [turn, if_neg nonzero, if_pos one]
      exact run fuel (Nat.lt_of_succ_lt_succ enough)
    · have tallest : t.height = f.sibling.height + 2 := by
        rcases sign_cases f.side with sign | sign <;> rw [sign] at even two <;> omega
      obtain ⟨inner, axis, shrunk, rotates⟩ := rotates_exists f.side f.p balanced tallest
      cases rotates.shrinks (leans.resolve_right (by omega))
      obtain ⟨innerBalanced, height⟩ := rotates.balanced balanced tallest
      obtain ⟨owns, root'⟩ := represents_frame (f := ⟨f.side, f.p, b, f.sibling⟩).mp set
      obtain ⟨m', run, represents'⟩ := avlBalance_spec rotates two owns root'
      have same :
          max (t.height - 1) f.sibling.height + 1 = heightAround inner f.sibling.height := by
        rw [height, Bool.toNat_true]
        omega
      rw [same] at around
      refine ⟨m', _, fun fuel enough => ?_, represents',
        balanced_plug.mpr ⟨siblingBalanced, balancedAround_append.mpr ⟨innerBalanced, around⟩⟩, ?_⟩
      · obtain ⟨fuel, rfl⟩ := Nat.exists_eq_succ_of_ne_zero (Nat.ne_zero_of_lt enough)
        have outOfRange : ¬ (b = 0) ∧ ¬ (b = 1 ∨ b = -1) ∧ (b = 2 ∨ b = -2) := by
          rcases sign_cases f.side with sign | sign <;> rw [sign] at two <;> omega
        rw [turn, if_neg outOfRange.1, if_neg outOfRange.2.1, if_pos outOfRange.2.2, run]
        rfl
      · rw [plug_append, ← sequence]
        exact toList_plug_congr path (rotates.toList b f.sibling)

/-- The answers of a compare function rise along the sequence, with one zero at most. -/
def Splits (cmp : P → Int) (l : List P) : Prop := l.Pairwise fun a b => cmp b ≤ 0 → cmp a < 0

/-- The pointer through which a subtree hangs. -/
def slotOf : List (Frame P) → Slot P
  | [] => .root
  | f :: _ => .child f.p f.side

/-- The searched key lies between the sequence left and right of the hole. -/
def Between (cmp : P → Int) (path : List (Frame P)) : Prop :=
  (∀ p ∈ before path, cmp p < 0) ∧ ∀ p ∈ after path, 0 < cmp p

omit [DecidableEq P] in
theorem Represents.slot {path : List (Frame P)} {t : NodeTree P}
    (represents : Represents m (plug path t) rest) : m.slot (slotOf path) = t.root := by
  cases path with
  | nil => exact represents.root
  | cons f path =>
    rw [slotOf, Mem.slot, (represents_frame.mp represents).1.read, nodeOf_child]

omit [DecidableEq P] in
theorem between_left {cmp : P → Int} {path : List (Frame P)} {l r : NodeTree P}
    (between : Between cmp path) (splits : Splits cmp (NodeTree.node l p b r).toList)
    (above : 0 < cmp p) :
    Between cmp (⟨.left, p, b, r⟩ :: path) := by
  obtain ⟨lows, highs⟩ := between
  refine ⟨by simpa [before] using lows, fun q member => ?_⟩
  rw [Splits, NodeTree.toList, List.pairwise_append, List.pairwise_cons] at splits
  simp only [after, List.cons_append, List.mem_cons, List.mem_append] at member
  rcases member with rfl | inRight | beyond
  · exact above
  · have rises := splits.2.1.1 q inRight
    by_contra low
    have := rises (by omega)
    omega
  · exact highs q beyond

omit [DecidableEq P] in
theorem between_right {cmp : P → Int} {path : List (Frame P)} {l r : NodeTree P}
    (between : Between cmp path) (splits : Splits cmp (NodeTree.node l p b r).toList)
    (below : cmp p < 0) :
    Between cmp (⟨.right, p, b, l⟩ :: path) := by
  obtain ⟨lows, highs⟩ := between
  refine ⟨fun q member => ?_, by simpa [after] using highs⟩
  rw [Splits, NodeTree.toList, List.pairwise_append] at splits
  simp only [before, List.mem_append, List.mem_singleton] at member
  rcases member with beyond | inLeft | rfl
  · exact lows q beyond
  · exact splits.2.2 q inLeft p (List.mem_cons_self ..) (Int.le_of_lt below)
  · exact below

omit [DecidableEq P] in
/-- The descent ends at an empty slot between smaller and greater nodes, or at a
node that compares equal. -/
theorem addDescend_spec (path : List (Frame P)) {t : NodeTree P} {cmp : P → Int}
    (represents : Represents m (plug path t) rest) (splits : Splits cmp t.toList)
    (between : Between cmp path) :
    (∃ path', plug path' .nil = plug path t ∧ Between cmp path' ∧ ∀ fuel, t.height < fuel →
      addDescend cmp fuel (slotOf path) (parentOf path) m =
        some (.inl (slotOf path', parentOf path'))) ∨
    ∃ p ∈ t.toList, cmp p = 0 ∧ ∀ fuel, t.height < fuel →
      addDescend cmp fuel (slotOf path) (parentOf path) m = some (.inr p) := by
  induction t generalizing path with
  | nil =>
    have slot := represents.slot
    refine .inl ⟨path, rfl, between, fun fuel enough => ?_⟩
    obtain ⟨fuel, rfl⟩ := Nat.exists_eq_succ_of_ne_zero (Nat.ne_zero_of_lt enough)
    rw [addDescend, slot]
    rfl
  | node l p b r left right =>
    have slot := represents.slot
    have turn : ∀ fuel, addDescend cmp (fuel + 1) (slotOf path) (parentOf path) m =
        if 0 < cmp p then addDescend cmp fuel (.child p .left) (some p) m
        else if cmp p < 0 then addDescend cmp fuel (.child p .right) (some p) m
        else some (.inr p) := by
      intro fuel
      rw [addDescend, slot]
      rfl
    have parts := splits
    rw [Splits, NodeTree.toList, List.pairwise_append, List.pairwise_cons] at parts
    have notBelow : ∀ {fuel}, max l.height r.height + 1 < fuel →
        ∃ fuel', fuel = fuel' + 1 ∧ l.height < fuel' ∧ r.height < fuel' := fun enough =>
      ⟨_, (Nat.sub_add_cancel (by omega)).symm, by omega, by omega⟩
    rcases Int.lt_trichotomy (cmp p) 0 with below | equal | above
    · rcases right (⟨.right, p, b, l⟩ :: path) represents parts.2.1.2
        (between_right between splits below) with
        ⟨path', whole, between', run⟩ | ⟨q, member, equal, run⟩
      · refine .inl ⟨path', whole, between', fun fuel enough => ?_⟩
        obtain ⟨fuel, rfl, _, enough⟩ := notBelow enough
        rw [turn, if_neg (by omega), if_pos below]
        exact run fuel enough
      · refine .inr ⟨q, by simp [NodeTree.toList, member], equal, fun fuel enough => ?_⟩
        obtain ⟨fuel, rfl, _, enough⟩ := notBelow enough
        rw [turn, if_neg (by omega), if_pos below]
        exact run fuel enough
    · refine .inr ⟨p, by simp [NodeTree.toList], equal, fun fuel enough => ?_⟩
      obtain ⟨fuel, rfl, _⟩ := notBelow enough
      rw [turn, if_neg (by omega), if_neg (by omega)]
    · rcases left (⟨.left, p, b, r⟩ :: path) represents parts.1
        (between_left between splits above) with
        ⟨path', whole, between', run⟩ | ⟨q, member, equal, run⟩
      · refine .inl ⟨path', whole, between', fun fuel enough => ?_⟩
        obtain ⟨fuel, rfl, enough, _⟩ := notBelow enough
        rw [turn, if_pos above]
        exact run fuel enough
      · refine .inr ⟨q, by simp [NodeTree.toList, member], equal, fun fuel enough => ?_⟩
        obtain ⟨fuel, rfl, enough, _⟩ := notBelow enough
        rw [turn, if_pos above]
        exact run fuel enough

/-- The new leaf in its slot. -/
theorem setSlot_spec {path : List (Frame P)} {new : P}
    (represents : Represents m (plug path .nil) (cell new detached + rest)) :
    Represents ((m.setSlot (slotOf path) (some new)).setUp new (parentOf path))
      (plug path (.node .nil new 0 .nil)) rest := by
  obtain ⟨owns, root⟩ := represents_plug.mp represents
  rw [represents_plug]
  cases path with
  | nil =>
    have alone := owns.reorder (b := cell new detached + rest) (by simp [cells, pathCells])
    have up := setUp_owns (m := { m with root := some new }) alone none
    exact ⟨up.reorder (by simp [cells, pathCells, detached, NodeTree.root, parentOf]), rfl⟩
  | cons f path =>
    have set := setChild_owns (owns.reorder (b := cell f.p
      (nodeOf f.side f.balance none f.sibling.root (parentOf path)) + (cell new detached +
        (cells (some f.p) f.sibling + (pathCells (some f.p) path + rest))))
      (by rw [pathCells, cells, NodeTree.root]; ac_rfl)) f.side (some new)
    rw [nodeOf_setChild] at set
    have up := setUp_owns (set.reorder (add_left_comm _ _ _)) (some f.p)
    refine ⟨up.reorder ?_, root⟩
    simp only [cells, pathCells, NodeTree.root, detached, add_zero, parentOf_cons]
    ac_rfl

theorem avlAdd2_spec {t : NodeTree P} {cmp : P → Int} {new : P}
    (represents : Represents m t (cell new detached + rest)) (balanced : t.Balanced)
    (splits : Splits cmp t.toList) :
    (∃ m' t' l r, (∀ fuel, t.height < fuel → avlAdd2 fuel new cmp m = some (m', new)) ∧
      Represents m' t' rest ∧ t'.Balanced ∧ t.toList = l ++ r ∧ t'.toList = l ++ new :: r ∧
      (∀ p ∈ l, cmp p < 0) ∧ ∀ p ∈ r, 0 < cmp p) ∨
    ∃ p ∈ t.toList, cmp p = 0 ∧
      ∀ fuel, t.height < fuel → avlAdd2 fuel new cmp m = some (m, p) := by
  rcases addDescend_spec [] represents splits (by simp [Between, before, after]) with
    ⟨path, whole, between, descend⟩ | ⟨p, member, equal, descend⟩
  · change plug path .nil = t at whole
    subst whole
    obtain ⟨_, around⟩ := balanced_plug.mp balanced
    have leaf : (NodeTree.node .nil new 0 .nil).Balanced :=
      ⟨trivial, trivial, rfl, by decide, by decide⟩
    obtain ⟨m', t', back, represents', balanced', sequence⟩ :=
      addBack_spec rfl leaf around (.inr rfl) (setSlot_spec represents)
    rw [toList_plug] at sequence
    refine .inl ⟨m', t', before path, after path, fun fuel enough => ?_, represents', balanced',
      toList_plug path .nil, sequence, between⟩
    have long := length_le_heightAround path 0
    have up := back fuel (Nat.lt_of_le_of_lt long (by rwa [height_plug] at enough))
    have down : addDescend cmp fuel .root none m = _ := descend fuel enough
    simp only [avlAdd2, down, Option.bind_eq_bind, Option.bind_some, up]
  · refine .inr ⟨p, member, equal, fun fuel enough => ?_⟩
    have down : addDescend cmp fuel .root none m = _ := descend fuel enough
    simp only [avlAdd2, down, Option.bind_eq_bind, Option.bind_some]

end MoonInWater.Avl
