import MoonInWater.Avl.Represent

/-! The rotations of avl_balance in memory, for both sides at once. -/
namespace MoonInWater.Avl
open AvlTree Cells
variable {P : Type} [DecidableEq P]

/-- avl_balance for a node whose subtree on the side `s` is two too tall. -/
def rebalance (s : Side) (parent : P) (m : Mem P) : Option (Mem P × Option P) := do
  let tmp ← (m.node parent).child s
  if 0 ≤ s.sign * (m.node tmp).balance then
    let m := setLr parent s ((m.node tmp).child s.other) m
    let m := setParent tmp parent m
    let m := setLr tmp s.other (some parent) m
    if (m.node tmp).balance = 0 then
      some ((m.setBalance parent s.sign).setBalance tmp (-s.sign), none)
    else some ((m.setBalance tmp 0).setBalance parent 0, some tmp)
  else do
    let axis ← (m.node tmp).child s.other
    let m := setLr parent s ((m.node axis).child s.other) m
    let m := setLr tmp s.other ((m.node axis).child s) m
    let m := setParent axis parent m
    let m := setLr axis .left (some (if s = .right then parent else tmp)) m
    let m := setLr axis .right (some (if s = .right then tmp else parent)) m
    let m := (m.setBalance parent 0).setBalance tmp 0
    let m := if (m.node axis).balance = s.sign then m.setBalance parent (-s.sign)
      else if (m.node axis).balance = -s.sign then m.setBalance tmp s.sign else m
    some (m.setBalance axis 0, some axis)

omit [DecidableEq P] in
/-- The two tests of a mirrored branch exclude each other. -/
theorem tests_comm (b : Int) (x y z : Mem P) :
    (if b = 1 then x else if b = -1 then y else z) =
      if b = -1 then y else if b = - -1 then x else z := by
  by_cases one : b = 1
  · have other : b ≠ -1 := by omega
    simp [one]
  · simp [one]

theorem avlBalance_eq {m : Mem P} (heavy : (m.node p).balance = 2 * s.sign) :
    avlBalance p m = rebalance s p m := by
  cases s with
  | right =>
    have two : (m.node p).balance = 2 := heavy
    rw [avlBalance, if_pos two]
    simp only [rebalance, Node.child, Side.sign, Int.one_mul, Side.other]
    rfl
  | left =>
    have other : (m.node p).balance ≠ 2 := by rw [heavy]; decide
    rw [avlBalance, if_neg other]
    simp only [rebalance, Node.child, Side.sign, Side.other]
    cases (m.node p).left with
    | none => rfl
    | some tmp =>
      simp only [Option.bind_eq_bind, Option.bind_some]
      have mirrored : 0 ≤ -1 * (m.node tmp).balance ↔ (m.node tmp).balance ≤ 0 := by omega
      by_cases outward : (m.node tmp).balance ≤ 0
      · simp only [mirrored, if_pos outward]
        rfl
      · simp only [mirrored, if_neg outward, tests_comm]
        rfl

/-- The links of a single rotation. -/
theorem single_owns {m : Mem P} {c d light : NodeTree P} {path : List (Frame P)}
    (owns : Owns m.node (cell p (nodeOf s bp (some a) light.root (parentOf path)) +
      (cells (some p) (c.join s a b d) +
        (cells (some p) light + (pathCells (some p) path + rest)))))
    (root : m.root = rootOf (some p) path) :
    let m' := setLr a s.other (some p) (setParent a p (setLr p s d.root m))
    Owns m'.node (cell a (nodeOf s b c.root (some p) (parentOf path)) +
      (cell p (nodeOf s bp d.root light.root (some a)) +
        (cells (some p) d + (cells (some a) c +
          (cells (some p) light + (pathCells (some a) path + rest)))))) ∧
      m'.root = rootOf (some a) path := by
  rw [cells_join] at owns
  have inner := setLr_owns (t := d) (owns.reorder
    (b := cell p (nodeOf s bp (some a) light.root (parentOf path)) + (cells (some a) d +
      (cell a (nodeOf s b c.root d.root (some p)) + (cells (some a) c +
        (cells (some p) light + (pathCells (some p) path + rest)))))) (by ac_rfl)) s
  rw [nodeOf_setChild] at inner
  obtain ⟨lifted, root⟩ := setParent_owns (a := a) (p := p) path (inner.reorder
    (b := cell a (nodeOf s b c.root d.root (some p)) +
      (cell p (nodeOf s bp d.root light.root (parentOf path)) + (pathCells (some p) path +
        (cells (some p) d + (cells (some a) c + (cells (some p) light + rest))))))
    (by ac_rfl)) (nodeOf_parent ..) (by rw [setLr_root, root])
  rw [nodeOf_setUp] at lifted
  have turned := setLr_cell lifted s.other
  rw [nodeOf_setChild_other, nodeOf_setUp] at turned
  exact ⟨turned.reorder (by ac_rfl), by rw [setLr_root, root]⟩

/-- The last two links of a double rotation, left before right in the source. -/
theorem hang_both {m : Mem P} {np nt : Node P} (s : Side)
    (owns : Owns m.node (cell a (nodeOf s b x y up) + (cell p np + (cell t nt + rest)))) :
    Owns (setLr a .right (some (if s = .right then t else p))
        (setLr a .left (some (if s = .right then p else t)) m)).node
      (cell a (nodeOf s b (some t) (some p) up) +
        (cell p { np with parent := some a } + (cell t { nt with parent := some a } + rest))) := by
  cases s with
  | right =>
    have first := setLr_cell owns .left
    have second := setLr_cell (first.reorder (b := cell a _ + (cell t nt + (cell p _ + rest)))
      (by ac_rfl)) .right
    exact second.reorder (by ac_rfl)
  | left =>
    have first := setLr_cell (owns.reorder (b := cell a _ + (cell t nt + (cell p np + rest)))
      (by ac_rfl)) .left
    have second := setLr_cell (first.reorder (b := cell a _ + (cell p np + (cell t _ + rest)))
      (by ac_rfl)) .right
    exact second

/-- The links of a double rotation. -/
theorem double_owns {m : Mem P} {c d e light : NodeTree P} {path : List (Frame P)}
    (owns : Owns m.node (cell p (nodeOf s bp (some t) light.root (parentOf path)) +
      (cells (some p) (e.join s t b (c.join s a ba d)) +
        (cells (some p) light + (pathCells (some p) path + rest)))))
    (root : m.root = rootOf (some p) path) :
    let m1 := setLr p s ((m.node a).child s.other) m
    let m2 := setParent a p (setLr t s.other ((m1.node a).child s) m1)
    let m' := setLr a .right (some (if s = .right then t else p))
      (setLr a .left (some (if s = .right then p else t)) m2)
    Owns m'.node (cell a (nodeOf s ba (some t) (some p) (parentOf path)) +
      (cell p (nodeOf s bp d.root light.root (some a)) +
        (cell t (nodeOf s b e.root c.root (some a)) +
          (cells (some p) d + (cells (some t) c + (cells (some t) e +
            (cells (some p) light + (pathCells (some a) path + rest)))))))) ∧
      m'.root = rootOf (some a) path := by
  intro m1 m2 m'
  rw [cells_join, cells_join, NodeTree.root_join] at owns
  have axis := (owns.reorder (b := cell a (nodeOf s ba c.root d.root (some t)) + (cell p _ +
    (cell t _ + (cells (some t) e + (cells (some a) c + (cells (some a) d +
      (cells (some p) light + (pathCells (some p) path + rest)))))))) (by ac_rfl)).read
  have inner := setLr_owns (t := d) (owns.reorder
    (b := cell p (nodeOf s bp (some t) light.root (parentOf path)) + (cells (some a) d +
      (cell a (nodeOf s ba c.root d.root (some t)) + (cell t (nodeOf s b e.root (some a) (some p)) +
        (cells (some t) e + (cells (some a) c +
          (cells (some p) light + (pathCells (some p) path + rest)))))))) (by ac_rfl)) s
  have m1_eq : setLr p s d.root m = m1 := by
    simp only [m1, axis, nodeOf_child_other]
  rw [nodeOf_setChild, m1_eq] at inner
  have axis := (inner.reorder (b := cell a (nodeOf s ba c.root d.root (some t)) + (cell p _ +
    (cell t _ + (cells (some t) e + (cells (some a) c + (cells (some p) d +
      (cells (some p) light + (pathCells (some p) path + rest)))))))) (by ac_rfl)).read
  have outer := setLr_owns (t := c) (inner.reorder
    (b := cell t (nodeOf s b e.root (some a) (some p)) + (cells (some a) c +
      (cell a (nodeOf s ba c.root d.root (some t)) +
        (cell p (nodeOf s bp d.root light.root (parentOf path)) + (cells (some t) e +
          (cells (some p) d + (cells (some p) light + (pathCells (some p) path + rest))))))))
    (by ac_rfl)) s.other
  rw [nodeOf_setChild_other] at outer
  obtain ⟨lifted, root2⟩ := setParent_owns (a := a) (p := p) path (outer.reorder
    (b := cell a (nodeOf s ba c.root d.root (some t)) +
      (cell p (nodeOf s bp d.root light.root (parentOf path)) + (pathCells (some p) path +
        (cell t (nodeOf s b e.root c.root (some p)) + (cells (some t) c + (cells (some t) e +
          (cells (some p) d + (cells (some p) light + rest))))))))
    (by ac_rfl)) (nodeOf_parent ..) (by rw [setLr_root, setLr_root, root])
  rw [nodeOf_setUp] at lifted
  have m2_eq : setParent a p (setLr t s.other c.root m1) = m2 := by
    simp only [m2, axis, nodeOf_child]
  rw [m2_eq] at lifted root2
  have hung := hang_both s (lifted.reorder
    (b := cell a (nodeOf s ba c.root d.root (parentOf path)) +
      (cell p (nodeOf s bp d.root light.root (parentOf path)) +
        (cell t (nodeOf s b e.root c.root (some p)) + (cells (some t) c + (cells (some t) e +
          (cells (some p) d + (cells (some p) light + (pathCells (some a) path + rest))))))))
    (by ac_rfl))
  rw [nodeOf_setUp, nodeOf_setUp] at hung
  exact ⟨hung.reorder (by ac_rfl), by rw [setLr_root, setLr_root, root2]⟩

/-- The balances of a double rotation, by that of the axis. -/
theorem tips_owns {m : Mem P} (ba : Int)
    (owns : Owns m.node (cell p (nodeOf s 0 x y z) + (cell t (nodeOf s 0 u v w) + rest))) :
    Owns (if ba = s.sign then m.setBalance p (-s.sign)
        else if ba = -s.sign then m.setBalance t s.sign else m).node
      (cell p (nodeOf s (if ba = s.sign then -s.sign else 0) x y z) +
        (cell t (nodeOf s (if ba = -s.sign then s.sign else 0) u v w) + rest)) := by
  by_cases tipped : ba = s.sign
  · have other : ba ≠ -s.sign := by
      rcases sign_cases s with one | one <;> omega
    have set := setBalance_owns owns (-s.sign)
    rw [nodeOf_setBalance] at set
    rwa [if_pos tipped, if_pos tipped, if_neg other]
  · rw [if_neg tipped, if_neg tipped]
    by_cases tipped : ba = -s.sign
    · have set := setBalance_owns (owns.reorder (add_left_comm _ _ _)) s.sign
      rw [nodeOf_setBalance] at set
      rw [if_pos tipped, if_pos tipped]
      exact set.reorder (add_left_comm _ _ _)
    · rwa [if_neg tipped, if_neg tipped]

omit [DecidableEq P] in
/-- The tree after a rotation, from the subtree that was too low up. -/
theorem represents_turned {m : Mem P} {c d light : NodeTree P} {path : List (Frame P)}
    (owns : Owns m.node (cell a (nodeOf s ba c.root (some p) (parentOf path)) +
      (cell p (nodeOf s bp d.root light.root (some a)) +
        (cells (some p) d + (cells (some a) c +
          (cells (some p) light + (pathCells (some a) path + rest)))))))
    (root : m.root = rootOf (some a) path) :
    Represents m (plug ([⟨s.other, p, bp, d⟩, ⟨s.other, a, ba, c⟩] ++ path) light) rest where
  owns := by
    rw [cells_plug]
    simp only [List.cons_append, List.nil_append, parentOf_cons, pathCells, nodeOf_other]
    exact owns.reorder (by ac_rfl)
  root := by
    rw [root_plug]
    exact root

/-- avl_balance on a node whose subtree `heavy` is two too tall: it does the
rotation of `heavy`, and returns the new root when the height has gone down. -/
theorem avlBalance_spec {m : Mem P} {heavy light : NodeTree P} {path inner : List (Frame P)}
    (rotates : Rotates s p heavy inner axis shrunk) (two : b = 2 * s.sign)
    (owns : Owns m.node (cell p (nodeOf s b heavy.root light.root (parentOf path)) +
      (cells (some p) heavy + (cells (some p) light + (pathCells (some p) path + rest)))))
    (root : m.root = rootOf (some p) path) :
    ∃ m', avlBalance p m = some (m', if shrunk then some axis else none) ∧
      Represents m' (plug (inner ++ path) light) rest := by
  subst two
  have top := owns.read
  rw [avlBalance_eq (by rw [top, nodeOf_balance])]
  cases rotates with
  | even c a d =>
    rw [NodeTree.root_join] at owns top
    obtain ⟨turned, root'⟩ := single_owns owns root
    have read := (owns.reorder (b := cell axis (nodeOf s 0 c.root d.root (some p)) + (cell p _ +
      (cells (some axis) c + (cells (some axis) d + (cells (some p) light +
        (pathCells (some p) path + rest)))))) (by rw [cells_join]; ac_rfl)).read
    have balance := turned.read
    have set1 := setBalance_owns (turned.reorder (add_left_comm _ _ _)) s.sign
    have set2 := setBalance_owns (set1.reorder (add_left_comm _ _ _)) (-s.sign)
    rw [nodeOf_setBalance, nodeOf_setBalance] at set2
    refine ⟨_, ?_, represents_turned set2 root'⟩
    simp only [rebalance, top, read, nodeOf_child, nodeOf_child_other, nodeOf_balance,
      Option.bind_eq_bind, Option.bind_some]
    rw [if_pos (by omega), if_pos (by rw [balance, nodeOf_balance])]
    rfl
  | single c a b d outward =>
    rw [NodeTree.root_join] at owns top
    obtain ⟨turned, root'⟩ := single_owns owns root
    have read := (owns.reorder (b := cell axis (nodeOf s b c.root d.root (some p)) + (cell p _ +
      (cells (some axis) c + (cells (some axis) d + (cells (some p) light +
        (pathCells (some p) path + rest)))))) (by rw [cells_join]; ac_rfl)).read
    have balance := turned.read
    have set1 := setBalance_owns turned 0
    have set2 := setBalance_owns (set1.reorder (add_left_comm _ _ _)) 0
    rw [nodeOf_setBalance, nodeOf_setBalance] at set2
    refine ⟨_, ?_, represents_turned (set2.reorder (add_left_comm _ _ _)) root'⟩
    have nonzero : b ≠ 0 := fun zero => by simp [zero] at outward
    simp only [rebalance, top, read, nodeOf_child, nodeOf_child_other, nodeOf_balance,
      Option.bind_eq_bind, Option.bind_some]
    rw [if_pos (Int.le_of_lt outward), if_neg (by rw [balance, nodeOf_balance]; exact nonzero)]
    rfl
  | double e t b c a ba d inward =>
    rw [NodeTree.root_join] at owns top
    obtain ⟨turned, root'⟩ := double_owns owns root
    have read := (owns.reorder (b := cell t (nodeOf s b e.root (some axis) (some p)) + (cell p _ +
      (cells (some t) e + (cells (some t) (c.join s axis ba d) + (cells (some p) light +
        (pathCells (some p) path + rest))))))
      (by rw [cells_join _ s e, NodeTree.root_join]; ac_rfl)).read
    have set1 := setBalance_owns (turned.reorder (add_left_comm _ _ _)) 0
    rw [nodeOf_setBalance] at set1
    have set2 := setBalance_owns (set1.reorder
      (b := cell t (nodeOf s b e.root c.root (some axis)) + (cell axis _ + (cell p _ +
        (cells (some p) d + (cells (some t) c + (cells (some t) e + (cells (some p) light +
          (pathCells (some axis) path + rest)))))))) (by ac_rfl)) 0
    rw [nodeOf_setBalance] at set2
    have balance := (set2.reorder (add_left_comm _ _ _)).read
    have tips := tips_owns ba (set2.reorder (b := cell p _ + (cell t _ +
      (cell axis (nodeOf s ba (some t) (some p) (parentOf path)) + (cells (some p) d +
        (cells (some t) c + (cells (some t) e + (cells (some p) light +
          (pathCells (some axis) path + rest)))))))) (by ac_rfl))
    have set3 := setBalance_owns (tips.reorder (b := cell axis _ + (cell p _ + (cells (some p) d +
      (cell t _ + (cells (some t) e + cells (some t) c) + (cells (some p) light +
        (pathCells (some axis) path + rest)))))) (by ac_rfl)) 0
    rw [nodeOf_setBalance, ← cells_join (some axis) s e t _ c,
      ← NodeTree.root_join s e t (if ba = -s.sign then s.sign else 0) c] at set3
    refine ⟨_, ?_, represents_turned set3 ?_⟩
    · simp only [rebalance, top, read, nodeOf_child, nodeOf_child_other, nodeOf_balance,
        Option.bind_eq_bind, Option.bind_some]
      rw [if_neg (by omega)]
      simp only [balance, nodeOf_balance]
      rfl
    · rw [← root']
      split
      · rfl
      · split <;> rfl

end MoonInWater.Avl
