import MoonInWater.Lib.CInt
import MoonInWater.Lib.Endian

/-! The tables of struct types of append.c: their copy, their form on the wire, and the
translation of offsets between two of them. -/
namespace MoonInWater.Sync.StructTable
open CInt Endian

/-- var_s as to its layout. -/
structure Var where
  typeNum : Nat
  arrayElemSize : Int
  size : Int
  len : Int
  addr : Int
  isHide : Int
deriving DecidableEq

/-- struct_one_s with its fields behind it. -/
structure StructOne where
  size : Int
  vars : List Var
deriving DecidableEq

/-- The struct_one_s in memory, by their addresses. -/
abbrev Memory := Nat → Option StructOne

/-- struct_all_s with the pointers behind it; `size` is that of the whole block. -/
structure StructAll where
  base : Nat
  size : Nat
  ones : List Nat
deriving DecidableEq

/-- sizeof( struct_all_s ), sizeof( struct_one ), sizeof( struct_one_s ) and sizeof( var_s ) -/
def structAllLen : Nat := 24
def pointerLen : Nat := 8
def structOneLen : Nat := 280
def varLen : Nat := 544

/-- GET_STRUCT_ONE -/
def getStructOne (mem : Memory) (all : StructAll) (index : Nat) : Option StructOne :=
  all.ones[index]?.bind mem

/-- The pointers of the copy: each is as far behind the one before as in the source. -/
def relocate : Nat → List Nat → List Nat
  | _, [] => []
  | dst, [_] => [dst]
  | dst, src :: src' :: rest => dst :: relocate (dst + (src' - src)) (src' :: rest)

/-- dump_struct_all into a block that malloc returns at `base`. -/
def dumpStructAll (mem : Memory) (all : StructAll) (base : Nat) : Option (Memory × StructAll) :=
  if all.ones.length ≤ 0 then none
  else
    let copied : Memory := fun p =>
      if base ≤ p ∧ p < base + all.size then mem (all.base + (p - base)) else mem p
    let start := base + structAllLen + all.ones.length * pointerLen
    some (copied, ⟨base, all.size, relocate start all.ones⟩)

/-- get_struct_all_to_buf_len, in words. -/
def getStructAllToBufLen (mem : Memory) : List Nat → Option Nat
  | [] => some 0
  | p :: ps => do
    let one ← mem p
    let rest ← getStructAllToBufLen mem ps
    some (1 + one.vars.length + rest)

def storeWord (buf : List Word) (i : Nat) (order : ByteOrder) (x : Int) : Option (List Word) :=
  if i < buf.length then some (buf.set i (store32 order (convert32 order (u32 x).toNat)))
  else none

/-- The loop over the fields of a type, of which it writes the first one each time. -/
def writeVars (order : ByteOrder) (one : StructOne) : Nat → Nat → List Word → Option (List Word)
  | 0, _, buf => some buf
  | j + 1, pVarOffset, buf => do
    let pVar ← one.vars.head?
    let buf ← storeWord buf pVarOffset order pVar.addr
    writeVars order one j (pVarOffset + 1) buf

def writeOnes (order : ByteOrder) (mem : Memory) : List Nat → Nat → Nat → List Word →
    Option (List Word)
  | [], _, _, buf => some buf
  | p :: ps, pU32, pVarOffset, buf => do
    let one ← mem p
    let buf ← storeWord buf pU32 order one.size
    let buf ← writeVars order one one.vars.length pVarOffset buf
    writeOnes order mem ps (pU32 + 1) (pVarOffset + one.vars.length) buf

/-- convert_struct_all_to_buf; `junk` is what malloc leaves in a word. -/
def convertStructAllToBuf (order : ByteOrder) (mem : Memory) (all : StructAll) (junk : Word) :
    Option (List Word) := do
  let size ← getStructAllToBufLen mem all.ones
  writeOnes order mem all.ones 0 all.ones.length (List.replicate size junk)

def loadWord (order : ByteOrder) (w : Word) : Int := i32 (convert32 order (load32 order w))

def set (mem : Memory) (p : Nat) (one : StructOne) : Memory := Function.update mem p (some one)

/-- The loop that reads the sizes; it leaves the words behind them. -/
def readSizes (order : ByteOrder) : List Nat → List Word → Memory → Option (List Word × Memory)
  | [], buf, mem => some (buf, mem)
  | _ :: _, [], _ => none
  | p :: ps, w :: buf, mem => do
    let one ← mem p
    readSizes order ps buf (set mem p { one with size := loadWord order w })

/-- The loop that reads the fields of the type at `p`, into the first one each time. -/
def readVars (order : ByteOrder) (ones : List Nat) (p : Nat) : Nat → List Word → Memory →
    Option (List Word × Memory)
  | 0, buf, mem => some (buf, mem)
  | _ + 1, [], _ => none
  | j + 1, w :: buf, mem => do
    let one ← mem p
    let pVar ← one.vars.head?
    let elem ← ones[pVar.typeNum]?.bind mem
    let pVar := { pVar with
      addr := loadWord order w
      arrayElemSize := elem.size
      size := i32 (pVar.len * elem.size) }
    readVars order ones p j buf (set mem p { one with vars := pVar :: one.vars.tail })

def readOnes (order : ByteOrder) (ones : List Nat) : List Nat → List Word → Memory →
    Option Memory
  | [], _, mem => some mem
  | p :: ps, buf, mem => do
    let one ← mem p
    let (buf, mem) ← readVars order ones p one.vars.length buf mem
    readOnes order ones ps buf mem

/-- convert_buf_to_struct_all -/
def convertBufToStructAll (order : ByteOrder) (mem : Memory) (src : StructAll) (buf : List Word)
    (base : Nat) : Option (Memory × StructAll) := do
  let size ← getStructAllToBufLen mem src.ones
  if buf.length < size then none
  else do
    let (mem, dst) ← dumpStructAll mem src base
    let (buf, mem) ← readSizes order dst.ones buf mem
    let mem ← readOnes order dst.ones dst.ones buf mem
    some (mem, dst)

/-- What the loop over the fields leaves, when it reaches `return -1` behind it. -/
structure Scan where
  offset : Int
  dstOffset : Int
  num : Int
  typeIndex : Int

/-- The loop over the fields in get_target_offset. Its test asks for a field that ends before the
offset, and its `continue` goes on with the next field. -/
def scanVars : List Var → List Var → Scan → Scan
  | src :: srcs, dst :: dsts, s =>
    if s.offset < src.addr then s
    else if src.addr ≤ s.offset ∧ i32 (src.addr + src.size) < s.offset then
      if 0 < src.isHide then s
      else scanVars srcs dsts ⟨i32 (s.offset - src.addr), i32 (s.dstOffset + dst.addr), src.len,
        src.typeNum⟩
    else scanVars srcs dsts s
  | _, _, s => s

/-- get_target_offset. No path through its loop comes back to the loop's test. -/
def getTargetOffset (mem : Memory) (srcAll dstAll : StructAll) (offset typeIndex num : Int) :
    Option Int :=
  if offset < 0 ∨ num < 0 ∨ typeIndex < 0 ∨ (srcAll.ones.length : Int) ≤ typeIndex then some (-1)
  else if 0 < offset then do
    let srcOne ← getStructOne mem srcAll typeIndex.toNat
    let dstOne ← getStructOne mem dstAll typeIndex.toNat
    if i32 (srcOne.size * num) ≤ offset then some (-1)
    else if srcOne.size = 0 then none
    else
      let dstOffset := i32 (0 + i32 (offset.tdiv srcOne.size * dstOne.size))
      let offset := offset.tmod srcOne.size
      if srcOne.vars.length = 0 then
        if offset ≠ 0 then some (-1) else some dstOffset
      else
        let _ := scanVars srcOne.vars dstOne.vars ⟨offset, dstOffset, num, typeIndex⟩
        some (-1)
  else some 0

end MoonInWater.Sync.StructTable
