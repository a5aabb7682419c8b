import MoonInWater.Lib.Fuel
import MoonInWater.Lib.Segment
import Mathlib.Algebra.Order.Ring.Int

/-! The interface hubs of moon_interface.h: what the macros lay out in memory, and how an interface
is found by its name in a chain of hubs. -/
namespace MoonInWater.Common.Interface
open Fuel
variable {O : Type}

/-- DECLARE_INTERFACE pads a name. -/
def interfaceName (name : List Char) : List Char := name ++ "123456789abcdef".toList

/-- COMPARE_LEN, for a `long` of `w` bytes. -/
def compareLen (w : Nat) (name : List Char) : Nat :=
  if w ≤ 16 then ((interfaceName name).length / w - 15 / w) * w
  else (interfaceName name).length - 15

def roundUp (num align : Nat) : Nat := (num + (align - 1)) / align * align

/-- The sizes of inter_head_s, inter_elem_s and inter_bottom_s: an `int`, and two with a pointer. -/
def headSize (w : Nat) : Int := roundUp 4 w
def elemSize (w : Nat) : Int := roundUp (8 + w) w
def bottomSize (w : Nat) : Int := roundUp (8 + w) w

structure InterElem where
  offset : Int
  nameLen : Int
  name : Option (List Char)

structure InterBottom (O : Type) where
  startOffset : Int
  num : Int
  next : Option O

/-- The memory of a hub, by distances from its start: what is read there as an inter_head_s, the
elements that are filled in, and the bottom behind them. -/
structure Entity (O : Type) where
  len : Int
  elem : Int → Option InterElem
  bottomAt : Int
  bottom : InterBottom O

/-- An interface type, and what its first bytes are as an `int` when its functions are filled in. -/
structure IType where
  name : List Char
  size : Nat
  first : Int

section registering
variable (w : Nat)

def caculateInterfaceEntityLen (interfacesLen interfaceNum : Nat) : Int :=
  headSize w + interfacesLen + interfaceNum * elemSize w + bottomSize w

/-- MALLOC_INTERFACE_ENTITY with its INIT_INTERFACE_ENTITY. -/
def mallocInterfaceEntity (interfacesLen interfaceNum : Nat) : Entity O :=
  let len := caculateInterfaceEntityLen w interfacesLen interfaceNum
  { len := len
    elem := fun _ => none
    bottomAt := len - bottomSize w
    bottom := ⟨len - bottomSize w, 0, none⟩ }

/-- The variables that BEGAIN_INTERFACE opens. -/
structure Begun (O : Type) where
  entity : Entity O
  pIElem : Int
  pIHub : Int

def begainInterface (e : Entity O) : Begun O where
  entity := e
  pIElem := e.bottomAt - e.bottom.num * elemSize w - elemSize w
  pIHub := e.bottomAt - e.bottom.startOffset

/-- GET_INTERFACE, and the caller's filling in of the interface: one that begins within the `int`
of the head lies over it. -/
def getInterface (s : Begun O) (i : IType) : Begun O where
  entity := { s.entity with
    len := if s.pIHub < 4 ∧ 0 < i.size then i.first else s.entity.len
    elem := Function.update s.entity.elem s.pIElem (some
      ⟨s.pIElem - s.pIHub, (interfaceName i.name).length, some (interfaceName i.name)⟩)
    bottom := { s.entity.bottom with num := s.entity.bottom.num + 1 } }
  pIElem := s.pIElem - elemSize w
  pIHub := s.pIHub + i.size

def endInterface (next : Option O) (s : Begun O) : Entity O :=
  { s.entity with bottom := { s.entity.bottom with next := next } }

/-- A hub that is allocated: the interfaces that are got, in room that was asked for. -/
structure DynamicHub (O : Type) where
  interfaces : List IType
  interfacesLen : Nat
  interfaceNum : Nat
  next : Option O
  room : (interfaces.map IType.size).sum ≤ interfacesLen
  slots : interfaces.length ≤ interfaceNum

def DynamicHub.entity (h : DynamicHub O) : Entity O :=
  endInterface h.next (h.interfaces.foldl (getInterface w)
    (begainInterface w (mallocInterfaceEntity w h.interfacesLen h.interfaceNum)))

/-- A hub of the STATIC_ macros: the declared interfaces, for each element the one that
STATIC_GET_INTERFACE registers in it, and the length of the user data behind the bottom. -/
structure StaticHub (O : Type) where
  declared : List IType
  elems : List (Option (Fin declared.length))
  userLen : Nat
  next : Option O

/-- Where the elements begin. -/
def StaticHub.elemsAt (h : StaticHub O) : Int := headSize w + (h.declared.map IType.size).sum

def StaticHub.bottomAt (h : StaticHub O) : Int := h.elemsAt w + h.elems.length * elemSize w

/-- Where a declared interface lies. -/
def StaticHub.interfaceAt (h : StaticHub O) (i : Nat) : Int :=
  headSize w + ((h.declared.take i).map IType.size).sum

/-- The initializer of the element at `place`. -/
def StaticHub.elem (h : StaticHub O) (place : Int) : Option (Fin h.declared.length) → InterElem
  | none => ⟨0, 0, none⟩
  | some i => ⟨place - h.interfaceAt w i, (interfaceName h.declared[i].name).length,
      some (interfaceName h.declared[i].name)⟩

def StaticHub.entity (h : StaticHub O) : Entity O where
  len := h.bottomAt w + bottomSize w + h.userLen
  elem place :=
    let distance := place - h.elemsAt w
    if 0 ≤ distance ∧ distance % elemSize w = 0 then
      (h.elems[(distance / elemSize w).toNat]?).map (h.elem w place)
    else none
  bottomAt := h.bottomAt w
  bottom := ⟨h.bottomAt w, h.elems.length, h.next⟩

inductive Hub (O : Type) where
  | dynamic (h : DynamicHub O)
  | static (h : StaticHub O)

def Hub.entity : Hub O → Entity O
  | .dynamic h => h.entity w
  | .static h => h.entity w

def Hub.next : Hub O → Option O
  | .dynamic h => h.next
  | .static h => h.next

end registering

section finding
variable (w : Nat)

/-- memcmp of `k` characters is 0. It may not read behind the strings. -/
def memcmpEq (a b : List Char) (k : Nat) : Option Bool :=
  if k ≤ a.length ∧ k ≤ b.length then some (a.take k = b.take k) else none

/-- The test of an element in FIND_INTERFACE. -/
def InterElem.named (x : InterElem) (name : List Char) : Option Bool :=
  if x.nameLen ≠ (interfaceName name).length then some false
  else do memcmpEq (← x.name) (interfaceName name) (compareLen w name)

/-- The loop over `num` elements, from the one at `place` backwards. -/
def findElem (e : Entity O) (name : List Char) : Nat → Int → Option (Option Int)
  | 0, _ => some none
  | num + 1, place => do
    let x ← e.elem place
    if ← x.named w name then some (some (place - x.offset))
    else findElem e name num (place - elemSize w)

def Entity.readBottom (e : Entity O) (place : Int) : Option (InterBottom O) :=
  if place = e.bottomAt then some e.bottom else none

/-- FIND_INTERFACE: `place` is where the hub's bottom ends. -/
def findInterface (mem : O → Entity O) (name : List Char) :
    Nat → O → Int → Option (Option (O × Int))
  | 0, _, _ => none
  | fuel + 1, o, place => do
    let bottomAt := place - bottomSize w
    let b ← (mem o).readBottom bottomAt
    match ← findElem w (mem o) name b.num.toNat (bottomAt - elemSize w) with
    | some found => some (some (o, found))
    | none =>
      match b.next with
      | none => some none
      | some o => findInterface mem name fuel o (mem o).len

end finding
end MoonInWater.Common.Interface
