import Mathlib.Data.List.Basic
import Mathlib.Tactic.Common
import Mathlib.Algebra.Order.Ring.Int

/-! Binary trees that store a balance at each node, paths from a subtree to the
root, and the two rotations of AVL trees, stated for both sides at once. -/
namespace MoonInWater.AvlTree

inductive Side where
  | left
  | right
deriving DecidableEq

def Side.other : Side → Side
  | .left => .right
  | .right => .left

/-- Sign of a balance that leans to the side. -/
def Side.sign : Side → Int
  | .left => -1
  | .right => 1

@[simp] theorem other_other (s : Side) : s.other.other = s := by cases s <;> rfl
@[simp] theorem sign_other (s : Side) : s.other.sign = -s.sign := by cases s <;> rfl

theorem sign_cases (s : Side) : s.sign = 1 ∨ s.sign = -1 := by
  cases s
  · exact .inr rfl
  · exact .inl rfl

inductive NodeTree (P : Type) where
  | nil
  | node (l : NodeTree P) (p : P) (b : Int) (r : NodeTree P)

namespace NodeTree
variable {P : Type}

def root : NodeTree P → Option P
  | nil => none
  | node _ p _ _ => some p

/-- The balance stored at the root. -/
def balance : NodeTree P → Int
  | nil => 0
  | node _ _ b _ => b

def toList : NodeTree P → List P
  | nil => []
  | node l p _ r => l.toList ++ p :: r.toList

def height : NodeTree P → Nat
  | nil => 0
  | node l _ _ r => max l.height r.height + 1

/-- Every stored balance is the height of the right less that of the left, within one. -/
def Balanced : NodeTree P → Prop
  | nil => True
  | node l _ b r =>
    l.Balanced ∧ r.Balanced ∧ b = (r.height : Int) - l.height ∧ -1 ≤ b ∧ b ≤ 1

/-- A node by the subtree on the side `s` and the one on the other side. -/
def join (s : Side) (t : NodeTree P) (p : P) (b : Int) (u : NodeTree P) : NodeTree P :=
  match s with
  | .left => node t p b u
  | .right => node u p b t

@[simp] theorem root_join (s : Side) (t : NodeTree P) (p : P) (b : Int) (u : NodeTree P) :
    (join s t p b u).root = some p := by cases s <;> rfl

@[simp] theorem balance_join (s : Side) (t : NodeTree P) (p : P) (b : Int) (u : NodeTree P) :
    (join s t p b u).balance = b := by cases s <;> rfl

@[simp] theorem height_join (s : Side) (t : NodeTree P) (p : P) (b : Int) (u : NodeTree P) :
    (join s t p b u).height = max t.height u.height + 1 := by
  cases s
  · rfl
  · simp only [join, height, max_comm]

/-- The balances do not show in the sequence. -/
theorem toList_join (s : Side) (t : NodeTree P) (p : P) (b b' : Int) (u : NodeTree P) :
    (join s t p b u).toList = (join s t p b' u).toList := by cases s <;> rfl

theorem join_other (s : Side) (t : NodeTree P) (p : P) (b : Int) (u : NodeTree P) :
    join s.other t p b u = join s u p b t := by cases s <;> rfl

theorem balanced_join {s : Side} {t u : NodeTree P} :
    (join s t p b u).Balanced ↔
      t.Balanced ∧ u.Balanced ∧ b = s.sign * (t.height - u.height) ∧ -1 ≤ b ∧ b ≤ 1 := by
  cases s with
  | left =>
    simp only [join, Balanced, Side.sign]
    refine and_congr_right fun _ => and_congr_right fun _ => and_congr_left fun _ => ?_
    omega
  | right =>
    simp only [join, Balanced, Side.sign, Int.one_mul]
    exact ⟨fun h => ⟨h.2.1, h.1, h.2.2⟩, fun h => ⟨h.2.1, h.1, h.2.2⟩⟩

/-- Every nonempty tree, seen from a side. -/
theorem exists_join (s : Side) {t : NodeTree P} (some : t.root = some p) :
    ∃ u b v, t = join s u p b v := by
  cases t with
  | nil => contradiction
  | node l q b r =>
    cases some
    cases s
    · exact ⟨l, b, r, rfl⟩
    · exact ⟨r, b, l, rfl⟩

/-- Induction on a tree, seen from a side. -/
theorem side_induction {motive : NodeTree P → Prop} (s : Side) (nil : motive nil)
    (join : ∀ u p b v, motive u → motive v → motive (join s u p b v)) (t : NodeTree P) :
    motive t := by
  induction t with
  | nil => exact nil
  | node l p b r left right =>
    cases s with
    | left => exact join l p b r left right
    | right => exact join r p b l right left

theorem height_pos {t : NodeTree P} (some : t.root = some p) : 0 < t.height := by
  cases t with
  | nil => contradiction
  | node => exact Nat.succ_pos _

theorem root_of_height {t : NodeTree P} (tall : 0 < t.height) : ∃ p, t.root = some p := by
  cases t with
  | nil => contradiction
  | node _ p _ _ => exact ⟨p, rfl⟩

theorem root_mem {t : NodeTree P} (some : t.root = some p) : p ∈ t.toList := by
  cases t with
  | nil => contradiction
  | node l q b r =>
    cases some
    simp [toList]

@[simp] theorem root_eq_none {t : NodeTree P} : t.root = none ↔ t = nil := by
  cases t <;> simp [root]

@[simp] theorem height_eq_zero {t : NodeTree P} : t.height = 0 ↔ t = nil := by
  cases t <;> simp [height]

end NodeTree

/-- A step of the path from a subtree up: the subtree hangs on the side `side` of
`p`, and `sibling` on the other. -/
structure Frame (P : Type) where
  side : Side
  p : P
  balance : Int
  sibling : NodeTree P

variable {P : Type}
open NodeTree

def Frame.fill (f : Frame P) (t : NodeTree P) : NodeTree P := join f.side t f.p f.balance f.sibling

/-- The whole tree around a subtree, the innermost frame first. -/
def plug : List (Frame P) → NodeTree P → NodeTree P
  | [], t => t
  | f :: path, t => plug path (f.fill t)

theorem plug_cons (f : Frame P) (path : List (Frame P)) (t : NodeTree P) :
    plug (f :: path) t = plug path (f.fill t) := rfl

theorem plug_append (inner outer : List (Frame P)) (t : NodeTree P) :
    plug (inner ++ outer) t = plug outer (plug inner t) := by
  induction inner generalizing t with
  | nil => rfl
  | cons f inner ih => exact ih (f.fill t)

def heightAround : List (Frame P) → Nat → Nat
  | [], k => k
  | f :: path, k => heightAround path (max k f.sibling.height + 1)

theorem heightAround_cons (f : Frame P) (path : List (Frame P)) (k : Nat) :
    heightAround (f :: path) k = heightAround path (max k f.sibling.height + 1) := rfl

theorem height_plug (path : List (Frame P)) (t : NodeTree P) :
    (plug path t).height = heightAround path t.height := by
  induction path generalizing t with
  | nil => rfl
  | cons f path ih =>
    rw [plug_cons, ih, Frame.fill, height_join, heightAround_cons]

theorem heightAround_append (inner outer : List (Frame P)) (k : Nat) :
    heightAround (inner ++ outer) k = heightAround outer (heightAround inner k) := by
  induction inner generalizing k with
  | nil => rfl
  | cons f inner ih => exact ih _

theorem length_le_heightAround (path : List (Frame P)) (k : Nat) :
    path.length + k ≤ heightAround path k := by
  induction path generalizing k with
  | nil => exact Nat.le_of_eq (Nat.zero_add k)
  | cons f path ih =>
    have more := ih (max k f.sibling.height + 1)
    rw [List.length_cons, heightAround_cons]
    omega

/-- The path is balanced around a subtree of height `k`. -/
def BalancedAround : List (Frame P) → Nat → Prop
  | [], _ => True
  | f :: path, k =>
    (f.sibling.Balanced ∧ f.balance = f.side.sign * (k - f.sibling.height) ∧
      -1 ≤ f.balance ∧ f.balance ≤ 1) ∧ BalancedAround path (max k f.sibling.height + 1)

theorem balanced_plug {path : List (Frame P)} {t : NodeTree P} :
    (plug path t).Balanced ↔ t.Balanced ∧ BalancedAround path t.height := by
  induction path generalizing t with
  | nil => exact (and_iff_left trivial).symm
  | cons f path ih =>
    simp only [plug_cons, ih, Frame.fill, balanced_join, height_join, BalancedAround, and_assoc]

theorem balancedAround_append {inner outer : List (Frame P)} :
    BalancedAround (inner ++ outer) k ↔
      BalancedAround inner k ∧ BalancedAround outer (heightAround inner k) := by
  induction inner generalizing k with
  | nil => exact (and_iff_right trivial).symm
  | cons f inner ih => simp only [List.cons_append, BalancedAround, ih, heightAround, and_assoc]

/-- In-order sequence left and right of the hole. -/
def before : List (Frame P) → List P
  | [] => []
  | f :: path => before path ++ match f.side with
    | .left => []
    | .right => f.sibling.toList ++ [f.p]

def after : List (Frame P) → List P
  | [] => []
  | f :: path => (match f.side with
    | .left => f.p :: f.sibling.toList
    | .right => []) ++ after path

theorem toList_plug (path : List (Frame P)) (t : NodeTree P) :
    (plug path t).toList = before path ++ (t.toList ++ after path) := by
  induction path generalizing t with
  | nil => simp [plug, before, after]
  | cons f path ih =>
    obtain ⟨side, p, b, sibling⟩ := f
    rw [plug_cons, ih]
    cases side <;> simp [Frame.fill, join, toList, before, after]

theorem toList_plug_congr (path : List (Frame P)) {t u : NodeTree P} (same : t.toList = u.toList) :
    (plug path t).toList = (plug path u).toList := by
  rw [toList_plug, toList_plug, same]

/-- Each node of a tree is the root of a subtree. -/
theorem exists_plug {t : NodeTree P} (member : p ∈ t.toList) :
    ∃ path l b r, t = plug path (node l p b r) := by
  induction t with
  | nil => contradiction
  | node l q b r left right =>
    rcases List.mem_append.mp member with inLeft | member
    · obtain ⟨path, l', b', r', rfl⟩ := left inLeft
      exact ⟨path ++ [⟨.left, q, b, r⟩], l', b', r', by rw [plug_append]; rfl⟩
    · rcases List.mem_cons.mp member with rfl | inRight
      · exact ⟨[], l, b, r, rfl⟩
      · obtain ⟨path, l', b', r', rfl⟩ := right inRight
        exact ⟨path ++ [⟨.right, q, b, l⟩], l', b', r', by rw [plug_append]; rfl⟩

/-- The rotations at `p`, whose subtree on the side `s` is two too tall. What
they leave is the path from the other subtree of `p` up to the new root `axis`;
`shrunk` says that the height has gone down by one. -/
inductive Rotates (s : Side) (p : P) : NodeTree P → List (Frame P) → P → Bool → Prop where
  | even (c : NodeTree P) (a : P) (d : NodeTree P) : Rotates s p (join s c a 0 d)
      [⟨s.other, p, s.sign, d⟩, ⟨s.other, a, -s.sign, c⟩] a false
  | single (c : NodeTree P) (a : P) (b : Int) (d : NodeTree P) : 0 < s.sign * b →
      Rotates s p (join s c a b d) [⟨s.other, p, 0, d⟩, ⟨s.other, a, 0, c⟩] a true
  | double (e : NodeTree P) (t : P) (b : Int) (c : NodeTree P) (a : P) (ba : Int) (d : NodeTree P) :
      s.sign * b < 0 →
      Rotates s p (join s e t b (join s c a ba d))
        [⟨s.other, p, if ba = s.sign then -s.sign else 0, d⟩,
          ⟨s.other, a, 0, join s e t (if ba = -s.sign then s.sign else 0) c⟩] a true

theorem Rotates.toList {heavy : NodeTree P} (rotates : Rotates s p heavy path axis shrunk)
    (b : Int) (t : NodeTree P) : (plug path t).toList = (join s heavy p b t).toList := by
  cases rotates <;> cases s <;> simp [plug, Frame.fill, join, NodeTree.toList, Side.other]

theorem Rotates.root {heavy : NodeTree P} (rotates : Rotates s p heavy path axis shrunk)
    (t : NodeTree P) : (plug path t).root = some axis := by
  cases rotates <;> simp [plug, Frame.fill]

/-- A rotation of a leaning subtree takes the height down. -/
theorem Rotates.shrinks {heavy : NodeTree P} (rotates : Rotates s p heavy path axis shrunk)
    (leans : heavy.balance ≠ 0) : shrunk = true := by
  cases rotates with
  | even c a d => exact absurd (balance_join ..) leans
  | single => rfl
  | double => rfl

theorem rotates_exists (s : Side) (p : P) {heavy : NodeTree P} (balanced : heavy.Balanced)
    (tall : heavy.height = k + 2) : ∃ path axis shrunk, Rotates s p heavy path axis shrunk := by
  obtain ⟨a, root⟩ := root_of_height (t := heavy) (by omega)
  obtain ⟨c, b, d, rfl⟩ := exists_join s root
  rcases Int.lt_trichotomy (s.sign * b) 0 with inward | even | outward
  · obtain ⟨_, _, balance, _, _⟩ := balanced_join.mp balanced
    have some : 0 < d.height := by
      rcases sign_cases s with one | one <;> rw [one] at inward balance <;> omega
    obtain ⟨a', root⟩ := root_of_height some
    obtain ⟨c', b', d', rfl⟩ := exists_join s root
    exact ⟨_, _, _, .double c a b c' a' b' d' inward⟩
  · have zero : b = 0 := by
      rcases sign_cases s with one | one <;> rw [one] at even <;> omega
    subst zero
    exact ⟨_, _, _, .even c a d⟩
  · exact ⟨_, _, _, .single c a b d outward⟩

/-- A rotation balances the subtrees again. -/
theorem Rotates.balanced {heavy : NodeTree P} (rotates : Rotates s p heavy path axis shrunk)
    (balanced : heavy.Balanced) (tall : heavy.height = k + 2) :
    BalancedAround path k ∧ heightAround path k = k + 3 - shrunk.toNat := by
  cases rotates with
  | even c a d =>
    obtain ⟨cBalanced, dBalanced, balance, _, _⟩ := balanced_join.mp balanced
    rw [height_join] at tall
    simp only [BalancedAround, heightAround, sign_other, and_true, Bool.toNat_false]
    rcases sign_cases s with one | one <;> rw [one] at balance ⊢ <;>
      refine ⟨⟨⟨dBalanced, ?_, ?_, ?_⟩, cBalanced, ?_, ?_, ?_⟩, ?_⟩ <;> omega
  | single c a b d outward =>
    obtain ⟨cBalanced, dBalanced, balance, _, _⟩ := balanced_join.mp balanced
    rw [height_join] at tall
    simp only [BalancedAround, heightAround, sign_other, and_true, Bool.toNat_true]
    rcases sign_cases s with one | one <;> rw [one] at balance outward ⊢ <;>
      refine ⟨⟨⟨dBalanced, ?_, ?_, ?_⟩, cBalanced, ?_, ?_, ?_⟩, ?_⟩ <;> omega
  | double e t b c a ba d inward =>
    obtain ⟨eBalanced, inner, balance, _, _⟩ := balanced_join.mp balanced
    obtain ⟨cBalanced, dBalanced, balance', _, _⟩ := balanced_join.mp inner
    rw [height_join, height_join] at tall
    rw [height_join] at balance
    simp only [BalancedAround, heightAround, sign_other, and_true, Bool.toNat_true, balanced_join,
      height_join]
    rcases sign_cases s with one | one <;> rw [one] at balance balance' inward ⊢ <;>
      refine ⟨⟨⟨dBalanced, ?_, ?_, ?_⟩, ⟨eBalanced, cBalanced, ?_, ?_, ?_⟩, ?_, ?_, ?_⟩, ?_⟩ <;>
      omega

end MoonInWater.AvlTree
