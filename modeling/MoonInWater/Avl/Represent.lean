import MoonInWater.Avl.Model
import MoonInWater.Lib.Cells

/-! Trees in memory: the cells that a tree and a path to the root occupy, and what
the two link macros do to them. -/
namespace MoonInWater.Avl
open AvlTree Cells
variable {P : Type}

/-- A node by its child on the side `s` and the one on the other side. -/
def nodeOf (s : Side) (b : Int) (child other parent : Option P) : Node P :=
  match s with
  | .left => ⟨b, child, other, parent⟩
  | .right => ⟨b, other, child, parent⟩

section nodeOf
variable (s : Side) (b b' : Int) (c d e : Option P)

@[simp] theorem nodeOf_balance : (nodeOf s b c d e).balance = b := by cases s <;> rfl
@[simp] theorem nodeOf_parent : (nodeOf s b c d e).parent = e := by cases s <;> rfl
@[simp] theorem nodeOf_child : (nodeOf s b c d e).child s = c := by cases s <;> rfl
@[simp] theorem nodeOf_child_other : (nodeOf s b c d e).child s.other = d := by cases s <;> rfl

@[simp] theorem nodeOf_setBalance :
    { nodeOf s b c d e with balance := b' } = nodeOf s b' c d e := by cases s <;> rfl

@[simp] theorem nodeOf_setUp (e' : Option P) :
    { nodeOf s b c d e with parent := e' } = nodeOf s b c d e' := by cases s <;> rfl

@[simp] theorem nodeOf_setChild (c' : Option P) :
    (nodeOf s b c d e).setChild s c' = nodeOf s b c' d e := by cases s <;> rfl

@[simp] theorem nodeOf_setChild_other (d' : Option P) :
    (nodeOf s b c d e).setChild s.other d' = nodeOf s b c d' e := by cases s <;> rfl

/-- The comparison by which the code tells on which side a child hangs. -/
theorem nodeOf_left_eq {p : P} (apart : d ≠ some p) :
    (nodeOf s b (some p) d e).left = some p ↔ s = .left := by
  cases s with
  | left => exact iff_of_true rfl rfl
  | right => exact iff_of_false apart (by decide)

theorem nodeOf_other : nodeOf s.other b c d e = nodeOf s b d c e := by cases s <;> rfl

end nodeOf

/-- The cells of a tree whose root has the parent link `parent`. -/
def cells (parent : Option P) : NodeTree P → Multiset (P × Node P)
  | .nil => 0
  | .node l p b r => cell p ⟨b, l.root, r.root, parent⟩ + (cells (some p) l + cells (some p) r)

theorem cells_node (parent : Option P) (l r : NodeTree P) (p : P) (b : Int) :
    cells parent (.node l p b r) =
      cell p ⟨b, l.root, r.root, parent⟩ + (cells (some p) l + cells (some p) r) := rfl

theorem cells_join (parent : Option P) (s : Side) (t : NodeTree P) (p : P) (b : Int)
    (u : NodeTree P) :
    cells parent (t.join s p b u) =
      cell p (nodeOf s b t.root u.root parent) + (cells (some p) t + cells (some p) u) := by
  cases s with
  | left => rfl
  | right => rw [NodeTree.join, cells_node, add_comm (cells (some p) u)]; rfl

def parentOf : List (Frame P) → Option P
  | [] => none
  | f :: _ => some f.p

@[simp] theorem parentOf_cons (f : Frame P) (path : List (Frame P)) :
    parentOf (f :: path) = some f.p := rfl

/-- The root pointer above a path whose hole is filled by `hole`. -/
def rootOf (hole : Option P) : List (Frame P) → Option P
  | [] => hole
  | f :: path => rootOf (some f.p) path

def pathCells (hole : Option P) : List (Frame P) → Multiset (P × Node P)
  | [] => 0
  | f :: path => cell f.p (nodeOf f.side f.balance hole f.sibling.root (parentOf path)) +
      (cells (some f.p) f.sibling + pathCells (some f.p) path)

theorem pathCells_cons (hole : Option P) (f : Frame P) (path : List (Frame P)) :
    pathCells hole (f :: path) =
      cell f.p (nodeOf f.side f.balance hole f.sibling.root (parentOf path)) +
        (cells (some f.p) f.sibling + pathCells (some f.p) path) := rfl

theorem cells_plug (path : List (Frame P)) (t : NodeTree P) :
    cells none (plug path t) = cells (parentOf path) t + pathCells t.root path := by
  induction path generalizing t with
  | nil => exact (add_zero _).symm
  | cons f path ih =>
    rw [plug_cons, ih, Frame.fill, cells_join, pathCells_cons, NodeTree.root_join, parentOf_cons]
    ac_rfl

theorem root_plug (path : List (Frame P)) (t : NodeTree P) :
    (plug path t).root = rootOf t.root path := by
  induction path generalizing t with
  | nil => rfl
  | cons f path ih =>
    rw [plug_cons, ih, Frame.fill, NodeTree.root_join]
    rfl

/-- The memory holds the tree below its root pointer, and the cells `rest` beside it. -/
structure Represents (m : Mem P) (t : NodeTree P) (rest : Multiset (P × Node P)) : Prop where
  owns : Owns m.node (cells none t + rest)
  root : m.root = t.root

theorem cells_addresses (parent : Option P) (t : NodeTree P) :
    (cells parent t).map Prod.fst = t.toList := by
  induction t generalizing parent with
  | nil => rfl
  | node l p b r left right =>
    rw [cells_node, Multiset.map_add, Multiset.map_add, left, right, cell, Multiset.map_singleton,
      Multiset.coe_add, Multiset.singleton_add, Multiset.cons_coe, Multiset.coe_eq_coe]
    exact List.perm_middle.symm

theorem cells_mem (x : P × Node P) (member : x ∈ cells parent t) : x.1 ∈ t.toList := by
  have address := Multiset.mem_map_of_mem Prod.fst member
  rwa [cells_addresses, Multiset.mem_coe] at address

theorem Represents.child {m : Mem P} {s : Side} {path : List (Frame P)} {u v : NodeTree P}
    {rest : Multiset (P × Node P)} (represents : Represents m (plug path (u.join s x b v)) rest) :
    m.node x = nodeOf s b u.root v.root (parentOf path) := by
  have owns := represents.owns
  rw [cells_plug, cells_join, add_assoc, add_assoc] at owns
  exact owns.read

theorem Represents.nodup {m : Mem P} {t : NodeTree P} {rest : Multiset (P × Node P)}
    (represents : Represents m t rest) : t.toList.Nodup := by
  have separate := represents.owns.left.separate
  rwa [cells_addresses, Multiset.coe_nodup] at separate

section rules
variable {m : Mem P} {rest : Multiset (P × Node P)} {n : Node P}

theorem root_ne {t : NodeTree P} (owns : Owns m.node (cell p n + (cells parent t + rest))) :
    t.root ≠ some p := by
  intro same
  cases t with
  | nil => contradiction
  | node l q b r =>
    cases same
    rw [cells_node, add_assoc] at owns
    exact owns.ne rfl

variable [DecidableEq P]

theorem set_owns (owns : Owns m.node (cell p n + rest)) (n' : Node P) :
    Owns (m.set p n').node (cell p n' + rest) := owns.write n'

theorem setBalance_owns (owns : Owns m.node (cell p n + rest)) (b : Int) :
    Owns (m.setBalance p b).node (cell p { n with balance := b } + rest) := by
  rw [Mem.setBalance, owns.read]
  exact owns.write _

theorem setUp_owns (owns : Owns m.node (cell p n + rest)) (parent : Option P) :
    Owns (m.setUp p parent).node (cell p { n with parent := parent } + rest) := by
  rw [Mem.setUp, owns.read]
  exact owns.write _

theorem setChild_owns (owns : Owns m.node (cell p n + rest)) (s : Side) (c : Option P) :
    Owns (m.setChild p s c).node (cell p (n.setChild s c) + rest) := by
  rw [Mem.setChild, owns.read]
  exact owns.write _

theorem setChild_side (m : Mem P) (p : P) (s : Side) (c : Option P) :
    (if s = .left then m.setChild p .left c else m.setChild p .right c) = m.setChild p s c := by
  cases s <;> rfl

/-- SET_LR hangs one node below another. -/
theorem setLr_cell {below : Node P} (owns : Owns m.node (cell p n + (cell q below + rest)))
    (s : Side) : Owns (setLr p s (some q) m).node
      (cell p (n.setChild s (some q)) + (cell q { below with parent := some p } + rest)) := by
  have linked := setChild_owns owns s (some q)
  have hung := setUp_owns (linked.reorder (add_left_comm _ _ _)) (some p)
  exact hung.reorder (add_left_comm _ _ _)

/-- SET_LR hangs a subtree below a node. -/
theorem setLr_owns {t : NodeTree P} (owns : Owns m.node (cell p n + (cells parent t + rest)))
    (s : Side) : Owns (setLr p s t.root m).node
      (cell p (n.setChild s t.root) + (cells (some p) t + rest)) := by
  cases t with
  | nil => exact setChild_owns owns s none
  | node l q b r =>
    rw [cells_node, add_assoc] at owns
    rw [cells_node, add_assoc]
    exact setLr_cell owns s

@[simp] theorem setLr_root (p : P) (s : Side) (c : Option P) (m : Mem P) :
    (setLr p s c m).root = m.root := by
  cases c <;> rfl

omit [DecidableEq P] in
theorem represents_plug {path : List (Frame P)} {t : NodeTree P} :
    Represents m (plug path t) rest ↔
      Owns m.node (cells (parentOf path) t + (pathCells t.root path + rest)) ∧
        m.root = rootOf t.root path := by
  rw [← root_plug, ← add_assoc, ← cells_plug]
  exact ⟨fun h => ⟨h.owns, h.root⟩, fun h => ⟨h.1, h.2⟩⟩

omit [DecidableEq P] in
/-- A subtree, the node above it and the sibling below that node. -/
theorem represents_frame {f : Frame P} {path : List (Frame P)} {t : NodeTree P} :
    Represents m (plug (f :: path) t) rest ↔
      Owns m.node (cell f.p (nodeOf f.side f.balance t.root f.sibling.root (parentOf path)) +
        (cells (some f.p) t + (cells (some f.p) f.sibling + (pathCells (some f.p) path + rest)))) ∧
        m.root = rootOf (some f.p) path := by
  rw [represents_plug, pathCells_cons, parentOf_cons]
  refine and_congr_left fun _ => ?_
  rw [add_assoc, add_left_comm, add_assoc]

omit [DecidableEq P] in
theorem Represents.parent_root {path : List (Frame P)} {t : NodeTree P}
    (represents : Represents m (plug path t) rest) (root : t.root = some x) :
    (m.node x).parent = parentOf path := by
  rw [represents_plug] at represents
  obtain ⟨owns, _⟩ := represents
  cases t with
  | nil => contradiction
  | node l p b r =>
    cases root
    rw [cells_node, add_assoc] at owns
    rw [owns.read]

section frame
variable {f : Frame P} {path : List (Frame P)} {t : NodeTree P}

omit [DecidableEq P] in
theorem Represents.frame_balance (represents : Represents m (plug (f :: path) t) rest) :
    (m.node f.p).balance = f.balance := by
  rw [represents_frame] at represents
  rw [represents.1.read, nodeOf_balance]

omit [DecidableEq P] in
/-- The comparison by which the ways back tell on which side they come up. -/
theorem Represents.frame_left (represents : Represents m (plug (f :: path) t) rest)
    (root : t.root = some x) : (m.node f.p).left = some x ↔ f.side = .left := by
  rw [represents_frame] at represents
  obtain ⟨owns, _⟩ := represents
  rw [owns.read, root]
  cases t with
  | nil => contradiction
  | node l p b r =>
    cases root
    apply nodeOf_left_eq
    have beside := owns.reorder (b := cell x _ + (cells (some f.p) f.sibling + (cell f.p _ +
      (cells (some x) l + (cells (some x) r + (pathCells (some f.p) path + rest))))))
      (by rw [cells_node]; ac_rfl)
    exact root_ne beside

theorem Represents.setBalance_frame (represents : Represents m (plug (f :: path) t) rest)
    (b : Int) :
    Represents (m.setBalance f.p b) (plug (⟨f.side, f.p, b, f.sibling⟩ :: path) t) rest := by
  rw [represents_frame] at represents ⊢
  obtain ⟨owns, root⟩ := represents
  have set := setBalance_owns owns b
  rw [nodeOf_setBalance] at set
  exact ⟨set, root⟩

end frame

/-- SET_PARENT puts a node where another one hangs. -/
theorem setParent_owns (path : List (Frame P)) {other : Node P}
    (owns : Owns m.node (cell a n + (cell p other + (pathCells (some p) path + rest))))
    (up : other.parent = parentOf path) (root : m.root = rootOf (some p) path) :
    Owns (setParent a p m).node (cell a { n with parent := parentOf path } +
        (cell p other + (pathCells (some a) path + rest))) ∧
      (setParent a p m).root = rootOf (some a) path := by
  have parent : (m.node p).parent = parentOf path := by
    rw [add_left_comm] at owns
    rw [owns.read, up]
  have lifted := setUp_owns owns (parentOf path)
  simp only [setParent, parent]
  cases path with
  | nil => exact ⟨lifted, rfl⟩
  | cons f path =>
    simp only [pathCells_cons, parentOf_cons] at lifted ⊢
    have above := lifted.reorder (b := cell f.p
      (nodeOf f.side f.balance (some p) f.sibling.root (parentOf path)) + (cell a _ +
        (cell p other + (cells (some f.p) f.sibling + (pathCells (some f.p) path + rest)))))
      (by ac_rfl)
    have apart : f.sibling.root ≠ some p := by
      have beside := lifted.reorder (b := cell p other + (cells (some f.p) f.sibling +
        (cell a _ + (cell f.p _ + (pathCells (some f.p) path + rest))))) (by ac_rfl)
      exact root_ne beside
    have hung := setChild_owns above f.side (some a)
    simp only [above.read, nodeOf_left_eq _ _ _ _ apart, setChild_side]
    rw [nodeOf_setChild] at hung
    exact ⟨hung.reorder (by ac_rfl), root⟩

end rules
end MoonInWater.Avl
