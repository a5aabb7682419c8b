import MoonInWater.Lib.AvlTree
import Mathlib.Logic.Function.Basic

/-! The parent-linked tree of moon_avltree.c on a heap of nodes. A function that
follows a NULL link, or whose loop outlives its fuel, returns `none`. -/
namespace MoonInWater.Avl
open AvlTree (Side)

structure Node (P : Type) where
  balance : Int
  left : Option P
  right : Option P
  parent : Option P
deriving DecidableEq

/-- A node with NULL links and balance 0. -/
def detached {P : Type} : Node P := ⟨0, none, none, none⟩

/-- The nodes by address, and the root pointer `*pavl`. -/
structure Mem (P : Type) where
  node : P → Node P
  root : Option P

variable {P : Type} [DecidableEq P]

def Node.child (n : Node P) : Side → Option P
  | .left => n.left
  | .right => n.right

def Node.setChild (n : Node P) (side : Side) (child : Option P) : Node P :=
  match side with
  | .left => { n with left := child }
  | .right => { n with right := child }

namespace Mem

def set (m : Mem P) (p : P) (n : Node P) : Mem P := { m with node := Function.update m.node p n }

def setBalance (m : Mem P) (p : P) (b : Int) : Mem P := m.set p { m.node p with balance := b }

def setUp (m : Mem P) (p : P) (parent : Option P) : Mem P :=
  m.set p { m.node p with parent := parent }

def setChild (m : Mem P) (p : P) (side : Side) (child : Option P) : Mem P :=
  m.set p ((m.node p).setChild side child)

end Mem

/-- SET_LR. -/
def setLr (node : P) (side : Side) (child : Option P) (m : Mem P) : Mem P :=
  let m := m.setChild node side child
  match child with
  | none => m
  | some child => m.setUp child (some node)

/-- SET_PARENT. -/
def setParent (node other : P) (m : Mem P) : Mem P :=
  let parent := (m.node other).parent
  let m := m.setUp node parent
  match parent with
  | none => { m with root := some node }
  | some parent =>
    if (m.node parent).left = some other then m.setChild parent .left (some node)
    else m.setChild parent .right (some node)

/-- avl_balance, with the axis or NULL that it returns. -/
def avlBalance (parent : P) (m : Mem P) : Option (Mem P × Option P) :=
  if (m.node parent).balance = 2 then do
    let tmp ← (m.node parent).right
    if 0 ≤ (m.node tmp).balance then
      let axis := tmp
      let m := setLr parent .right (m.node axis).left m
      let m := setParent axis parent m
      let m := setLr axis .left (some parent) m
      if (m.node axis).balance = 0 then
        some ((m.setBalance parent 1).setBalance axis (-1), none)
      else some ((m.setBalance axis 0).setBalance parent 0, some axis)
    else do
      let axis ← (m.node tmp).left
      let m := setLr parent .right (m.node axis).left m
      let m := setLr tmp .left (m.node axis).right m
      let m := setParent axis parent m
      let m := setLr axis .left (some parent) m
      let m := setLr axis .right (some tmp) m
      let m := (m.setBalance parent 0).setBalance tmp 0
      let m := if (m.node axis).balance = 1 then m.setBalance parent (-1)
        else if (m.node axis).balance = -1 then m.setBalance tmp 1 else m
      some (m.setBalance axis 0, some axis)
  else do
    let tmp ← (m.node parent).left
    if (m.node tmp).balance ≤ 0 then
      let axis := tmp
      let m := setLr parent .left (m.node axis).right m
      let m := setParent axis parent m
      let m := setLr axis .right (some parent) m
      if (m.node axis).balance = 0 then
        some ((m.setBalance parent (-1)).setBalance axis 1, none)
      else some ((m.setBalance axis 0).setBalance parent 0, some axis)
    else do
      let axis ← (m.node tmp).right
      let m := setLr parent .left (m.node axis).right m
      let m := setLr tmp .right (m.node axis).left m
      let m := setParent axis parent m
      let m := setLr axis .left (some tmp) m
      let m := setLr axis .right (some parent) m
      let m := (m.setBalance parent 0).setBalance tmp 0
      let m := if (m.node axis).balance = 1 then m.setBalance tmp (-1)
        else if (m.node axis).balance = -1 then m.setBalance parent 1 else m
      some (m.setBalance axis 0, some axis)

/-- What the pointer `tmp_pavl` of avl_add2 points at. -/
inductive Slot (P : Type) where
  | root
  | child (p : P) (side : Side)

def Mem.slot (m : Mem P) : Slot P → Option P
  | .root => m.root
  | .child p side => (m.node p).child side

def Mem.setSlot (m : Mem P) (slot : Slot P) (value : Option P) : Mem P :=
  match slot with
  | .root => { m with root := value }
  | .child p side => m.setChild p side value

/-- The descent of avl_add2: the empty slot and its parent, or the equal node.
`cmp` is the compare function with the user data of the call. -/
def addDescend (cmp : P → Int) : Nat → Slot P → Option P → Mem P →
    Option ((Slot P × Option P) ⊕ P)
  | 0, _, _, _ => none
  | fuel + 1, slot, parent, m =>
    match m.slot slot with
    | none => some (.inl (slot, parent))
    | some p =>
      if 0 < cmp p then addDescend cmp fuel (.child p .left) (some p) m
      else if cmp p < 0 then addDescend cmp fuel (.child p .right) (some p) m
      else some (.inr p)

/-- The way back of avl_add2. -/
def addBack : Nat → P → Mem P → Option (Mem P)
  | 0, _, _ => none
  | fuel + 1, tmp, m =>
    match (m.node tmp).parent with
    | none => some m
    | some parent =>
      let balance := if (m.node parent).left = some tmp then -1 else 1
      let m := m.setBalance parent ((m.node parent).balance + balance)
      let b := (m.node parent).balance
      if b = 0 then some m
      else if b = 1 ∨ b = -1 then addBack fuel parent m
      else if b = 2 ∨ b = -2 then (avlBalance parent m).map Prod.fst
      else some m

/-- avl_add2, with the node whose data it returns. -/
def avlAdd2 (fuel : Nat) (newNode : P) (cmp : P → Int) (m : Mem P) : Option (Mem P × P) := do
  match ← addDescend cmp fuel .root none m with
  | .inr p => some (m, p)
  | .inl (slot, parent) =>
    let m := m.setSlot slot (some newNode)
    let m := m.setUp newNode parent
    let m ← addBack fuel newNode m
    some (m, newNode)

/-- replace_avl. -/
def replaceAvl (new replaced : P) (m : Mem P) : Mem P :=
  let m := m.setBalance new (m.node replaced).balance
  let m := setLr new .left (m.node replaced).left m
  let m := setLr new .right (m.node replaced).right m
  setParent new replaced m

/-- Follows the links on one side to their end. -/
def sideMost (side : Side) : Nat → P → Mem P → Option P
  | 0, _, _ => none
  | fuel + 1, p, m =>
    match (m.node p).child side with
    | none => some p
    | some q => sideMost side fuel q m

/-- The way back of avl_del2 from the leaf that is to go, which is still linked. -/
def delBack : Nat → P → Mem P → Option (Mem P)
  | 0, _, _ => none
  | fuel + 1, tmp, m =>
    match (m.node tmp).parent with
    | none => some m
    | some parent =>
      let balance := if (m.node parent).left = some tmp then 1 else -1
      let m := m.setBalance parent ((m.node parent).balance + balance)
      let b := (m.node parent).balance
      if b = 1 ∨ b = -1 then some m
      else if b = 0 then delBack fuel parent m
      else if b = 2 ∨ b = -2 then do
        match ← avlBalance parent m with
        | (m, none) => some m
        | (m, some tmp) => delBack fuel tmp m
      else delBack fuel tmp m

/-- The leaf from which avl_del2 starts back, and the two marked nodes above it. -/
def delLeaf (fuel : Nat) (p : P) (m : Mem P) : Option (P × Option P × Option P) :=
  if (m.node p).left = none ∧ (m.node p).right = none then some (p, none, none)
  else do
    let side := if (m.node p).balance ≤ 0 then Side.left else Side.right
    let tmp ← (m.node p).child side
    let tmp ← sideMost side.other fuel tmp m
    match (m.node tmp).child side with
    | none => some (tmp, some p, none)
    | some child => some (child, some p, some tmp)

/-- A marked node gives its place to `new` and is the node to go from then on. -/
def takeMark (mark : Option P) (delAvl : P) (m : Mem P) : Mem P × P :=
  match mark with
  | none => (m, delAvl)
  | some mark => (replaceAvl delAvl mark m, mark)

/-- avl_del2, with the node whose data it returns. -/
def avlDel2 (fuel : Nat) (p : P) (m : Mem P) : Option (Mem P × P) := do
  let (delAvl, mark1, mark2) ← delLeaf fuel p m
  let m ← delBack fuel delAvl m
  let (m, delAvl) := match (m.node delAvl).parent with
    | none => ({ m with root := none }, delAvl)
    | some parent =>
      let m := if (m.node parent).left = some delAvl then m.setChild parent .left none
        else m.setChild parent .right none
      let (m, delAvl) := takeMark mark2 delAvl m
      takeMark mark1 delAvl m
  some (m.set delAvl detached, delAvl)

def avlReplace2 (new replaced : P) (m : Mem P) : Mem P :=
  (replaceAvl new replaced m).set replaced detached

/-- The loop of avl_search2 at `avl`, with the candidate `prev`. -/
def avlSearch2 (cmp : P → Int) : Nat → Option P → Option P → Mem P → Option (Option P)
  | 0, _, _, _ => none
  | fuel + 1, prev, avl, m =>
    match avl with
    | none => some prev
    | some cur =>
      if 0 < cmp cur then avlSearch2 cmp fuel prev (m.node cur).left m
      else if cmp cur < 0 then avlSearch2 cmp fuel (some cur) (m.node cur).right m
      else some (some cur)

def avlLeftestNode (fuel : Nat) (avl : Option P) (m : Mem P) : Option (Option P) :=
  match avl with
  | none => some none
  | some p => (sideMost .left fuel p m).map some

/-- avl_traver_midorder; `func` may carry a state along. -/
def avlTraverMidorder {S : Type} (func : P → S → S × Int) :
    Nat → Option P → Mem P → S → Option (S × Int)
  | 0, _, _, _ => none
  | _ + 1, none, _, s => some (s, 0)
  | fuel + 1, some p, m, s => do
    let (s, ret) ← avlTraverMidorder func fuel (m.node p).left m s
    if ret ≠ 0 then return (s, ret)
    let (s, ret) := func p s
    if ret ≠ 0 then return (s, ret)
    avlTraverMidorder func fuel (m.node p).right m s

end MoonInWater.Avl
