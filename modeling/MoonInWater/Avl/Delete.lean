import MoonInWater.Avl.Balance

/-! avl_del2 and avl_replace2: the way back with the leaf still linked, taking the
leaf out, and giving the places of marked nodes to others. -/
namespace MoonInWater.Avl
open AvlTree Cells
variable {P : Type} [DecidableEq P] {m : Mem P} {rest : Multiset (P × Node P)}

/-- replace_avl puts a node in the place of another one. -/
theorem replaceAvl_plug {path : List (Frame P)} {l r : NodeTree P} {n : Node P}
    (represents : Represents m (plug path (.node l q b r)) (cell new n + rest)) :
    Represents (replaceAvl new q m) (plug path (.node l new b r))
      (cell q ⟨b, l.root, r.root, parentOf path⟩ + rest) := by
  obtain ⟨owns, root⟩ := represents_plug.mp represents
  have place := (owns.reorder (b := cell q ⟨b, l.root, r.root, parentOf path⟩ + (cells (some q) l +
    (cells (some q) r + (pathCells (some q) path + (cell new n + rest)))))
    (by rw [cells]; ac_rfl))
  have copied := setBalance_owns (place.reorder (b := cell new n + (cell q _ + (cells (some q) l +
    (cells (some q) r + (pathCells (some q) path + rest))))) (by ac_rfl)) b
  have read := (copied.reorder (add_left_comm _ _ _)).read
  have left := setLr_owns (copied.reorder (b := cell new _ + (cells (some q) l +
    (cell q ⟨b, l.root, r.root, parentOf path⟩ + (cells (some q) r +
      (pathCells (some q) path + rest))))) (by ac_rfl)) .left
  have read' := (left.reorder (b := cell q _ + (cell new _ + (cells (some new) l +
    (cells (some q) r + (pathCells (some q) path + rest))))) (by ac_rfl)).read
  have right := setLr_owns (left.reorder (b := cell new _ + (cells (some q) r +
    (cell q ⟨b, l.root, r.root, parentOf path⟩ + (cells (some new) l +
      (pathCells (some q) path + rest))))) (by ac_rfl)) .right
  obtain ⟨up, root'⟩ := setParent_owns path (right.reorder (b := cell new _ +
    (cell q ⟨b, l.root, r.root, parentOf path⟩ + (pathCells (some q) path +
      (cells (some new) l + (cells (some new) r + rest))))) (by ac_rfl)) rfl
    (by rw [setLr_root, setLr_root]; exact root)
  have same : replaceAvl new q m = setParent new q (setLr new .right r.root
      (setLr new .left l.root (m.setBalance new b))) := by
    simp only [replaceAvl, place.read, read, read']
  rw [same, represents_plug]
  exact ⟨up.reorder (by simp only [cells, Node.setChild, NodeTree.root]; ac_rfl), root'⟩

/-- One turn of the way back, read off the tree. -/
theorem delBack_frame {f : Frame P} {path : List (Frame P)} {t : NodeTree P}
    (represents : Represents m (plug (f :: path) t) rest) (root : t.root = some x) (fuel : Nat) :
    delBack (fuel + 1) x m =
      let b := f.balance - f.side.sign
      let m' := m.setBalance f.p b
      if b = 1 ∨ b = -1 then some m'
      else if b = 0 then delBack fuel f.p m'
      else if b = 2 ∨ b = -2 then do
        let (m', axis) ← avlBalance f.p m'
        axis.elim (some m') fun tmp => delBack fuel tmp m'
      else delBack fuel x m' := by
  have sign : f.balance + (if (m.node f.p).left = some x then 1 else -1) =
      f.balance - f.side.sign := by
    simp only [represents.frame_left root]
    cases f.side <;> rfl
  have new := (represents.setBalance_frame (f.balance - f.side.sign)).frame_balance
  simp only at new
  rw [delBack, represents.parent_root root]
  simp only [parentOf_cons, represents.frame_balance, sign, new]
  generalize avlBalance f.p _ = turned
  rcases turned with _ | ⟨_, _ | _⟩ <;> rfl

/-- The way back from a doomed leaf at the end of `inner`: the tree without the
leaf is balanced in the end, and the sequence around the leaf is as before. -/
theorem delBack_spec (inner : List (Frame P)) {path : List (Frame P)} {leaf : NodeTree P}
    (root : (plug inner leaf).root = some x) (innerBalanced : BalancedAround inner 0)
    (around : BalancedAround path (heightAround inner 0 + 1))
    (represents : Represents m (plug path (plug inner leaf)) rest) :
    ∃ m' inner', (∀ fuel, path.length < fuel → delBack fuel x m = some m') ∧
      Represents m' (plug inner' leaf) rest ∧ BalancedAround inner' 0 ∧
      ∀ u, (plug inner' u).toList = (plug path (plug inner u)).toList := by
  induction path generalizing m inner x with
  | nil =>
    refine ⟨m, inner, fun fuel enough => ?_, represents, innerBalanced, fun u => rfl⟩
    obtain ⟨fuel, rfl⟩ := Nat.exists_eq_succ_of_ne_zero (Nat.ne_zero_of_lt enough)
    rw [delBack, represents.parent_root root]
    rfl
  | cons f path ih =>
    obtain ⟨⟨siblingBalanced, balance, low, high⟩, around⟩ := around
    have turn := delBack_frame represents root
    have set := represents.setBalance_frame (f.balance - f.side.sign)
    rw [Int.natCast_add, Int.natCast_one] at balance
    generalize b_eq : f.balance - f.side.sign = b at turn set
    generalize k_eq : heightAround inner 0 = k at balance around
    simp only at turn
    have even : b = f.side.sign * (k - f.sibling.height) := by
      rcases sign_cases f.side with one | one <;> rw [one] at balance b_eq ⊢ <;> omega
    have range : b = 0 ∨ (b = 1 ∨ b = -1) ∨ b = 2 * f.side.other.sign := by
      rw [sign_other]
      rcases sign_cases f.side with one | one <;> rw [one] at b_eq ⊢ <;> omega
    have sequence : ∀ u, (plug (⟨f.side, f.p, b, f.sibling⟩ :: path) (plug inner u)).toList =
        (plug (f :: path) (plug inner u)).toList := fun u =>
      toList_plug_congr path (NodeTree.toList_join ..)
    rcases range with zero | one | two
    · have level : f.sibling.height = k := by
        rcases sign_cases f.side with sign | sign <;> rw [sign] at even <;> omega
      have longer : ∀ u, plug (inner ++ [⟨f.side, f.p, b, f.sibling⟩]) u =
          (plug inner u).join f.side f.p b f.sibling := fun u => plug_append ..
      have height : heightAround (inner ++ [⟨f.side, f.p, b, f.sibling⟩]) 0 + 1 =
          max (k + 1) f.sibling.height + 1 := by
        rw [heightAround_append, k_eq, heightAround, heightAround, level]
        omega
      rw [← height] at around
      have balanced' : BalancedAround (inner ++ [⟨f.side, f.p, b, f.sibling⟩]) 0 :=
        balancedAround_append.mpr ⟨innerBalanced, ⟨siblingBalanced, by rw [k_eq]; exact even,
          by simp only; omega, by simp only; omega⟩, trivial⟩
      obtain ⟨m', inner', run, represents', balanced'', toList⟩ :=
        ih _ (x := f.p) (by rw [longer, NodeTree.root_join]) balanced' around
          (by rw [longer]; exact set)
      refine ⟨m', inner', fun fuel enough => ?_, represents', balanced'', fun u => ?_⟩
      · obtain ⟨fuel, rfl⟩ := Nat.exists_eq_succ_of_ne_zero (Nat.ne_zero_of_lt enough)
        rw [turn, if_neg (by omega), if_pos zero]
        exact run fuel (Nat.lt_of_succ_lt_succ enough)
      · rw [toList, longer]
        exact sequence u
    · have lower : f.sibling.height = k + 1 := by
        rcases sign_cases f.side with sign | sign <;> rw [sign] at even b_eq <;> omega
      have height : max (k + 1) f.sibling.height = max k f.sibling.height := by omega
      rw [height] at around
      refine ⟨m.setBalance f.p b, inner ++ ⟨f.side, f.p, b, f.sibling⟩ :: path,
        fun fuel enough => ?_, ?_, ?_, fun u => ?_⟩
      · obtain ⟨fuel, rfl⟩ := Nat.exists_eq_succ_of_ne_zero (Nat.ne_zero_of_lt enough)
        rw [turn, if_pos one]
      · rw [plug_append]
        exact set
      · refine balancedAround_append.mpr ⟨innerBalanced, ?_⟩
        rw [k_eq]
        exact ⟨⟨siblingBalanced, even, by simp only; omega, by simp only; omega⟩, around⟩
      · rw [plug_append]
        exact sequence u
    · have tall : f.sibling.height = k + 2 := by
        rw [sign_other] at two
        rcases sign_cases f.side with sign | sign <;> rw [sign] at even two <;> omega
      obtain ⟨turned, axis, shrunk, rotates⟩ :=
        rotates_exists f.side.other f.p siblingBalanced tall
      obtain ⟨turnedBalanced, height⟩ := rotates.balanced siblingBalanced tall
      obtain ⟨owns, root'⟩ := represents_frame (f := ⟨f.side, f.p, b, f.sibling⟩).mp set
      rw [← nodeOf_other, add_left_comm (cells _ (plug inner leaf))] at owns
      obtain ⟨m', run, represents'⟩ := avlBalance_spec rotates two owns root'
      have both : BalancedAround (inner ++ turned) 0 :=
        balancedAround_append.mpr ⟨innerBalanced, by rwa [k_eq]⟩
      have sequence' : ∀ u, (plug path (plug turned (plug inner u))).toList =
          (plug (f :: path) (plug inner u)).toList := fun u => by
        rw [← sequence]
        refine toList_plug_congr path ?_
        rw [rotates.toList b, NodeTree.join_other]
        rfl
      have outOfRange : ¬ (b = 1 ∨ b = -1) ∧ b ≠ 0 ∧ (b = 2 ∨ b = -2) := by
        rcases sign_cases f.side.other with sign | sign <;> rw [sign] at two <;> omega
      cases shrunk with
      | false =>
        refine ⟨m', inner ++ turned ++ path, fun fuel enough => ?_, ?_, ?_, fun u => ?_⟩
        · obtain ⟨fuel, rfl⟩ := Nat.exists_eq_succ_of_ne_zero (Nat.ne_zero_of_lt enough)
          rw [turn, if_neg outOfRange.1, if_neg outOfRange.2.1, if_pos outOfRange.2.2, run]
          rfl
        · rw [plug_append] at represents' ⊢
          rwa [plug_append]
        · refine balancedAround_append.mpr ⟨both, ?_⟩
          have same : max (k + 1) f.sibling.height + 1 = heightAround (inner ++ turned) 0 := by
            rw [heightAround_append, k_eq, height, Bool.toNat_false]
            omega
          rwa [← same]
        · rw [plug_append, plug_append]
          exact sequence' u
      | true =>
        have same : max (k + 1) f.sibling.height + 1 = heightAround (inner ++ turned) 0 + 1 := by
          rw [heightAround_append, k_eq, height, Bool.toNat_true]
          omega
        rw [same] at around
        obtain ⟨m'', inner', run', represents'', balanced'', toList⟩ :=
          ih _ (x := axis) (by rw [plug_append]; exact rotates.root _) both around
            (by rw [plug_append] at represents' ⊢; exact represents')
        refine ⟨m'', inner', fun fuel enough => ?_, represents'', balanced'', fun u => ?_⟩
        · obtain ⟨fuel, rfl⟩ := Nat.exists_eq_succ_of_ne_zero (Nat.ne_zero_of_lt enough)
          rw [turn, if_neg outOfRange.1, if_neg outOfRange.2.1, if_pos outOfRange.2.2, run]
          exact run' fuel (Nat.lt_of_succ_lt_succ enough)
        · rw [toList, plug_append]
          exact sequence' u

/-- The end of a side: the path to it turns that way only. -/
def AtEnd (s : Side) (spine : List (Frame P)) : Prop := ∀ f ∈ spine, f.side = s

omit [DecidableEq P] in
theorem sideMost_spec (s : Side) (path : List (Frame P)) {t : NodeTree P} (root : t.root = some x)
    (represents : Represents m (plug path t) rest) :
    ∃ spine q b c, AtEnd s spine ∧ t = plug spine (NodeTree.join s .nil q b c) ∧
      ∀ fuel, t.height ≤ fuel → sideMost s fuel x m = some q := by
  induction t using NodeTree.side_induction s generalizing path x with
  | nil => contradiction
  | join u p b v outer _ =>
    rw [NodeTree.root_join] at root
    cases root
    have read := represents.child
    have turn : ∀ fuel, sideMost s (fuel + 1) p m =
        u.root.elim (some p) fun q => sideMost s fuel q m := fun fuel => by
      rw [sideMost, read, nodeOf_child]
      cases u.root <;> rfl
    have positive : ∀ {fuel}, (u.join s p b v).height ≤ fuel →
        ∃ fuel', fuel = fuel' + 1 ∧ u.height ≤ fuel' := fun enough => by
      rw [NodeTree.height_join] at enough
      exact ⟨_, (Nat.sub_add_cancel (by omega)).symm, by omega⟩
    cases next : u.root with
    | none =>
      rw [NodeTree.root_eq_none] at next
      subst next
      refine ⟨[], p, b, v, by simp [AtEnd], rfl, fun fuel enough => ?_⟩
      obtain ⟨fuel, rfl, _⟩ := positive enough
      exact turn fuel
    | some y =>
      obtain ⟨spine, q, b', c, atEnd, rfl, run⟩ :=
        outer (⟨s, p, b, v⟩ :: path) next represents
      refine ⟨spine ++ [⟨s, p, b, v⟩], q, b', c, ?_, by rw [plug_append]; rfl,
        fun fuel enough => ?_⟩
      · intro f member
        rcases List.mem_append.mp member with within | top
        · exact atEnd f within
        · rw [List.mem_singleton.mp top]
      · obtain ⟨fuel, rfl, below⟩ := positive enough
        rw [turn, next]
        exact run fuel below

omit [DecidableEq P] in
theorem AtEnd.after {spine : List (Frame P)} (atEnd : AtEnd .right spine) : after spine = [] := by
  induction spine with
  | nil => rfl
  | cons f spine ih =>
    have right := atEnd f (List.mem_cons_self ..)
    rw [AvlTree.after, right, ih fun g member => atEnd g (List.mem_cons_of_mem f member)]
    rfl

omit [DecidableEq P] in
theorem AtEnd.before {spine : List (Frame P)} (atEnd : AtEnd .left spine) : before spine = [] := by
  induction spine with
  | nil => rfl
  | cons f spine ih =>
    have left := atEnd f (List.mem_cons_self ..)
    rw [AvlTree.before, left, ih fun g member => atEnd g (List.mem_cons_of_mem f member)]
    rfl

omit [DecidableEq P] in
/-- The inner end of the subtree on the side `s` of `p` is next to `p` in the sequence. -/
theorem toList_end {s : Side} (path : List (Frame P)) {spine : List (Frame P)}
    (atEnd : AtEnd s.other spine) (p : P) (b : Int) (t : NodeTree P) :
    ∃ x y, ∀ u, (plug path ((plug spine u).join s p b t)).toList =
      match s with
      | .left => x ++ (u.toList ++ p :: y)
      | .right => x ++ (p :: u.toList ++ y) := by
  cases s with
  | left =>
    refine ⟨AvlTree.before path ++ AvlTree.before spine, t.toList ++ AvlTree.after path,
      fun u => ?_⟩
    simp [toList_plug, NodeTree.join, NodeTree.toList, AtEnd.after atEnd]
  | right =>
    refine ⟨AvlTree.before path ++ t.toList, AvlTree.after spine ++ AvlTree.after path, fun u => ?_⟩
    simp [toList_plug, NodeTree.join, NodeTree.toList, AtEnd.before atEnd]

/-- The doomed leaf is taken from its parent, or the tree becomes empty. -/
def unhook (leaf : P) (m : Mem P) : Mem P :=
  match (m.node leaf).parent with
  | none => { m with root := none }
  | some parent =>
    if (m.node parent).left = some leaf then m.setChild parent .left none
    else m.setChild parent .right none

theorem unhook_spec {path : List (Frame P)}
    (represents : Represents m (plug path (.node .nil leaf b .nil)) rest) :
    Represents (unhook leaf m) (plug path .nil)
      (cell leaf ⟨b, none, none, parentOf path⟩ + rest) := by
  have up := represents.parent_root rfl
  rw [represents_plug]
  rw [unhook, up]
  cases path with
  | nil =>
    obtain ⟨owns, _⟩ := represents_plug.mp represents
    exact ⟨owns.reorder (by simp [cells, pathCells, NodeTree.root, parentOf]), rfl⟩
  | cons f path =>
    obtain ⟨owns, root⟩ := represents_frame.mp represents
    have cut := setChild_owns owns f.side none
    rw [nodeOf_setChild] at cut
    simp only [parentOf_cons, represents.frame_left rfl, setChild_side]
    refine ⟨cut.reorder ?_, root⟩
    simp only [cells, pathCells, NodeTree.root, add_zero, zero_add]
    ac_rfl

theorem replaceAvl_spec {t : NodeTree P} {n : Node P}
    (represents : Represents m t (cell new n + rest)) (balanced : t.Balanced)
    (sequence : t.toList = x ++ q :: y) :
    ∃ t' stale, Represents (replaceAvl new q m) t' (cell q stale + rest) ∧ t'.Balanced ∧
      t'.toList = x ++ new :: y := by
  obtain ⟨path, l, b, r, rfl⟩ := exists_plug (t := t) (p := q) (by rw [sequence]; simp)
  have nodup := represents.nodup
  rw [toList_plug, NodeTree.toList, List.append_assoc, List.cons_append, ← List.append_assoc]
    at sequence nodup
  obtain ⟨fresh, nodup', _⟩ := List.nodup_middle.mp nodup |> List.nodup_cons.mp |>.imp_right
    List.nodup_append.mp
  obtain ⟨rfl, _, rfl⟩ := (List.append_cons_inj_of_notMem
    (fun member => fresh (List.mem_append_left _ member))
    (fun member => fresh (List.mem_append_right _ member))).mp sequence
  obtain ⟨inTree, around⟩ := balanced_plug.mp balanced
  refine ⟨_, _, replaceAvl_plug represents, balanced_plug.mpr ⟨inTree, around⟩, ?_⟩
  simp [toList_plug, NodeTree.toList]

/-- The doomed leaf has left the tree, which is balanced without it. -/
theorem delBack_unhook {path : List (Frame P)}
    (balanced : (plug path (.node .nil leaf b .nil)).Balanced)
    (represents : Represents m (plug path (.node .nil leaf b .nil)) rest) :
    ∃ m' t stale, (∀ fuel, path.length < fuel → delBack fuel leaf m = some m') ∧
      Represents (unhook leaf m') t (cell leaf stale + rest) ∧ t.Balanced ∧
      t.toList = (plug path .nil).toList ∧ ((m'.node leaf).parent = none → t = .nil) := by
  obtain ⟨_, around⟩ := balanced_plug.mp balanced
  obtain ⟨m', path', run, represents', balanced', sequence⟩ :=
    delBack_spec [] (x := leaf) rfl trivial around represents
  refine ⟨m', _, _, run, unhook_spec represents', balanced_plug.mpr ⟨trivial, balanced'⟩,
    sequence .nil, fun top => ?_⟩
  rw [represents'.parent_root rfl] at top
  cases path' with
  | nil => rfl
  | cons => contradiction

omit [DecidableEq P] in
/-- The side on which avl_del2 looks for a node to put in the place of `p`. -/
theorem exists_deep {l r : NodeTree P} (balanced : (NodeTree.node l p b r).Balanced)
    (inner : ¬ (l = .nil ∧ r = .nil)) :
    ∃ s big small, NodeTree.node l p b r = NodeTree.join s big p b small ∧ big ≠ .nil ∧
      (if b ≤ 0 then Side.left else Side.right) = s := by
  obtain ⟨_, _, balance, _, _⟩ := balanced
  by_cases low : b ≤ 0
  · refine ⟨.left, l, r, rfl, fun none => inner ⟨none, ?_⟩, if_pos low⟩
    rw [none, NodeTree.height] at balance
    exact NodeTree.height_eq_zero.mp (by omega)
  · refine ⟨.right, r, l, rfl, fun none => ?_, if_neg low⟩
    rw [none, NodeTree.height] at balance
    omega

/-- The three parts of avl_del2 in sequence. -/
theorem avlDel2_eq (located : delLeaf fuel p m = some (leaf, mark1, mark2))
    (back : delBack fuel leaf m = some m')
    (top : (m'.node leaf).parent = none → mark1 = none ∧ mark2 = none) :
    avlDel2 fuel p m =
      let (m2, q) := takeMark mark2 leaf (unhook leaf m')
      let (m1, q) := takeMark mark1 q m2
      some (m1.set q detached, q) := by
  simp only [avlDel2, located, back, Option.bind_eq_bind, Option.bind_some]
  cases parent : (m'.node leaf).parent with
  | none =>
    obtain ⟨rfl, rfl⟩ := top parent
    simp only [takeMark, unhook, parent]
  | some parent' => simp only [unhook, parent]

/-- The last writes of avl_del2 leave the node detached. -/
theorem detach {t : NodeTree P} {stale : Node P}
    (represents : Represents m t (cell p stale + rest)) :
    Represents (m.set p detached) t (cell p detached + rest) :=
  ⟨(set_owns (represents.owns.reorder (add_left_comm _ _ _)) detached).reorder
    (add_left_comm _ _ _), represents.root⟩

omit [DecidableEq P] in
theorem ne_nil_of_sequence {t : NodeTree P} (sequence : t.toList = x ++ q :: y) : t ≠ .nil := by
  rintro rfl
  simp [NodeTree.toList] at sequence

/-- avl_del2 of a node whose neighbour `q` in the sequence is a leaf. -/
theorem avlDel2_near {path spine : List (Frame P)} {small : NodeTree P}
    (atEnd : AtEnd s.other spine)
    (represents : Represents m
      (plug path ((plug spine (NodeTree.nil.join s q c .nil)).join s p b small)) rest)
    (balanced : (plug path ((plug spine (NodeTree.nil.join s q c .nil)).join s p b small)).Balanced)
    (located : ∀ fuel, k < fuel → delLeaf fuel p m = some (q, some p, none))
    (short : spine.length + path.length + 1 ≤ k) :
    ∃ m' t' l r, (∀ fuel, k < fuel → avlDel2 fuel p m = some (m', p)) ∧
      Represents m' t' (cell p detached + rest) ∧ t'.Balanced ∧
      (plug path ((plug spine (NodeTree.nil.join s q c .nil)).join s p b small)).toList
        = l ++ p :: r ∧ t'.toList = l ++ r := by
  have leaf : NodeTree.nil.join s q c .nil = .node .nil q c .nil := by cases s <;> rfl
  simp only [leaf] at represents balanced ⊢
  obtain ⟨x, y, sequence⟩ := toList_end path atEnd p b small
  have whole : ∀ u, plug (spine ++ ⟨s, p, b, small⟩ :: path) u =
      plug path ((plug spine u).join s p b small) := fun u => plug_append ..
  rw [sequence]
  rw [← whole] at represents balanced
  obtain ⟨m1, t1, stale, back, represents1, balanced1, sequence1, top⟩ :=
    delBack_unhook balanced represents
  have middle : t1.toList = x ++ p :: y := by
    rw [sequence1, whole, sequence]
    cases s <;> rfl
  obtain ⟨t2, stale2, represents2, balanced2, sequence2⟩ :=
    replaceAvl_spec represents1 balanced1 middle
  have run : ∀ fuel, k < fuel → avlDel2 fuel p m =
      some ((replaceAvl q p (unhook q m1)).set p detached, p) := fun fuel enough =>
    avlDel2_eq (located fuel enough) (back fuel (by simp; omega))
      fun none => absurd (top none) (ne_nil_of_sequence middle)
  cases s with
  | left =>
    exact ⟨_, t2, x ++ [q], y, run, detach represents2, balanced2, by simp [NodeTree.toList],
      by simp [sequence2]⟩
  | right =>
    exact ⟨_, t2, x, q :: y, run, detach represents2, balanced2, by simp [NodeTree.toList],
      sequence2⟩

/-- avl_del2 of a node whose neighbour `q` in the sequence has the leaf `d` below it. -/
theorem avlDel2_far {path spine : List (Frame P)} {small : NodeTree P}
    (atEnd : AtEnd s.other spine)
    (represents : Represents m (plug path
      ((plug spine ((NodeTree.node .nil d e .nil).join s q c .nil)).join s p b small)) rest)
    (balanced : (plug path
      ((plug spine ((NodeTree.node .nil d e .nil).join s q c .nil)).join s p b small)).Balanced)
    (located : ∀ fuel, k < fuel → delLeaf fuel p m = some (d, some p, some q))
    (short : spine.length + path.length + 2 ≤ k) :
    ∃ m' t' l r, (∀ fuel, k < fuel → avlDel2 fuel p m = some (m', p)) ∧
      Represents m' t' (cell p detached + rest) ∧ t'.Balanced ∧
      (plug path ((plug spine ((NodeTree.node .nil d e .nil).join s q c .nil)).join s p b
        small)).toList = l ++ p :: r ∧ t'.toList = l ++ r := by
  obtain ⟨x, y, sequence⟩ := toList_end path atEnd p b small
  have whole : ∀ u, plug (⟨s, q, c, .nil⟩ :: spine ++ ⟨s, p, b, small⟩ :: path) u =
      plug path ((plug spine (u.join s q c .nil)).join s p b small) := fun u => plug_append ..
  rw [sequence]
  rw [← whole] at represents balanced
  obtain ⟨m1, t1, stale, back, represents1, balanced1, sequence1, top⟩ :=
    delBack_unhook balanced represents
  rw [whole, sequence] at sequence1
  have run : ∀ fuel, k < fuel → t1 ≠ .nil → avlDel2 fuel p m =
      some ((replaceAvl q p (replaceAvl d q (unhook d m1))).set p detached, p) :=
    fun fuel enough nonempty => avlDel2_eq (located fuel enough) (back fuel (by simp; omega))
      fun none => absurd (top none) nonempty
  cases s with
  | left =>
    have first : t1.toList = x ++ q :: p :: y := sequence1
    obtain ⟨t2, stale2, represents2, balanced2, sequence2⟩ :=
      replaceAvl_spec represents1 balanced1 first
    have second : t2.toList = (x ++ [d]) ++ p :: y := by simp [sequence2]
    obtain ⟨t3, stale3, represents3, balanced3, sequence3⟩ :=
      replaceAvl_spec represents2 balanced2 second
    exact ⟨_, t3, x ++ [d, q], y, fun fuel enough => run fuel enough (ne_nil_of_sequence first),
      detach represents3, balanced3, by simp [NodeTree.toList, NodeTree.join], by simp [sequence3]⟩
  | right =>
    have first : t1.toList = (x ++ [p]) ++ q :: y := by
      simp [sequence1, NodeTree.toList, NodeTree.join]
    obtain ⟨t2, stale2, represents2, balanced2, sequence2⟩ :=
      replaceAvl_spec represents1 balanced1 first
    have second : t2.toList = x ++ p :: d :: y := by simp [sequence2]
    obtain ⟨t3, stale3, represents3, balanced3, sequence3⟩ :=
      replaceAvl_spec represents2 balanced2 second
    exact ⟨_, t3, x, q :: d :: y, fun fuel enough => run fuel enough (ne_nil_of_sequence first),
      detach represents3, balanced3, by simp [NodeTree.toList, NodeTree.join], sequence3⟩

/-- avl_del2 takes exactly the given node out, and leaves it detached. -/
theorem avlDel2_spec {t : NodeTree P} (represents : Represents m t rest) (balanced : t.Balanced)
    (member : p ∈ t.toList) :
    ∃ m' t' l r, (∀ fuel, t.height < fuel → avlDel2 fuel p m = some (m', p)) ∧
      Represents m' t' (cell p detached + rest) ∧ t'.Balanced ∧ t.toList = l ++ p :: r ∧
      t'.toList = l ++ r := by
  obtain ⟨path, l, b, r, rfl⟩ := exists_plug member
  have here := balanced_plug.mp balanced
  have read : m.node p = ⟨b, l.root, r.root, parentOf path⟩ := by
    have owns := represents.owns
    rw [cells_plug, cells, add_assoc, add_assoc] at owns
    exact owns.read
  have long := length_le_heightAround path (NodeTree.node l p b r).height
  rw [← height_plug] at long
  by_cases leaf : l = .nil ∧ r = .nil
  · obtain ⟨rfl, rfl⟩ := leaf
    obtain ⟨m', t, stale, run, represents', balanced', sequence, _⟩ :=
      delBack_unhook balanced represents
    refine ⟨(unhook p m').set p detached, t, before path, after path, fun fuel enough => ?_,
      detach represents', balanced', toList_plug path _, sequence.trans (toList_plug path _)⟩
    have located : delLeaf fuel p m = some (p, none, none) := by
      rw [delLeaf, read, if_pos ⟨rfl, rfl⟩]
    exact avlDel2_eq located (run fuel (by omega)) fun _ => ⟨rfl, rfl⟩
  · obtain ⟨s, big, small, shape, nonempty, side⟩ := exists_deep here.1 leaf
    have inner : ¬ ((m.node p).left = none ∧ (m.node p).right = none) := by
      rw [read]
      simpa using leaf
    have sideEq : (if (m.node p).balance ≤ 0 then Side.left else Side.right) = s := by
      rw [read]
      exact side
    rw [shape] at represents balanced here long ⊢
    obtain ⟨y, big_root⟩ := Option.ne_none_iff_exists'.mp (mt NodeTree.root_eq_none.mp nonempty)
    obtain ⟨bigBalanced, _, _⟩ := NodeTree.balanced_join.mp here.1
    obtain ⟨spine, q, c, u, atEnd, rfl, most⟩ :=
      sideMost_spec s.other (⟨s, p, b, small⟩ :: path) big_root represents
    have below := length_le_heightAround spine (NodeTree.join s.other .nil q c u).height
    rw [← height_plug] at below
    obtain ⟨endBalanced, _⟩ := balanced_plug.mp bigBalanced
    obtain ⟨_, _, uBalance, _, _⟩ := NodeTree.balanced_join.mp endBalanced
    rw [NodeTree.join_other] at *
    have readP := represents.child
    have inner' : Represents m (plug (spine ++ ⟨s, p, b, small⟩ :: path) (u.join s q c .nil))
        rest := by
      rw [plug_append]
      exact represents
    have readQ : m.node q = nodeOf s c u.root none _ := inner'.child
    have located : ∀ fuel, (plug path
        ((plug spine (u.join s q c .nil)).join s p b small)).height < fuel →
        delLeaf fuel p m = some (u.root.elim (q, some p, none)
          fun child => (child, some p, some q)) := fun fuel enough => by
      rw [NodeTree.height_join] at long
      rw [delLeaf, if_neg inner, sideEq]
      simp only [readP, nodeOf_child, big_root, Option.bind_eq_bind, Option.bind_some]
      rw [most fuel (by omega)]
      simp only [Option.bind_some, readQ, nodeOf_child]
      cases u.root with
      | none => rfl
      | some child => rfl
    rw [NodeTree.height_join] at long below
    cases u with
    | nil => exact avlDel2_near atEnd represents balanced located (by omega)
    | node l' d e r' =>
      obtain ⟨rfl, rfl⟩ : l' = .nil ∧ r' = .nil := by
        simp only [NodeTree.height] at uBalance
        constructor <;> apply NodeTree.height_eq_zero.mp <;>
          rcases sign_cases s with one | one <;> simp only [sign_other, one] at uBalance <;> omega
      refine avlDel2_far atEnd represents balanced located ?_
      simp only [NodeTree.height] at long below
      omega

end MoonInWater.Avl
