import MoonInWater.Lib.Bytes
import MoonInWater.Lib.Loop
import MoonInWater.Sync.VarType

/-! get_block_copy: the elements of a block copied from one layout into another, with the pointers
between the block and an array of them. The products of a count and a size are taken exactly: they
are bounded by data_len of the block, which is an int. -/
namespace MoonInWater.Sync.Copy
open Bytes Endian Loop VarType

/-- sizeof( void * ) -/
def pointerLen : Nat := 8

/-- block_copy_s; `points` counts the slots of the array of pointers. -/
structure BlockCopy where
  flag : Int
  src : Nat
  dst : Nat
  points : Int
  index : Int
  num : Nat
deriving DecidableEq

/-- What a copy writes to: the destination and the array of pointers, each a memory of its own. -/
structure Buffers where
  dst : Memory
  points : Memory

def memcpy (mem : Memory) (p : Nat) (src : Memory) (q n : Nat) : Memory :=
  write mem p (read src q n)

def memset (mem : Memory) (p : Nat) (b : UInt8) (n : Nat) : Memory :=
  write mem p (List.replicate n b)

/-- A loop that copies `n` bytes from the place that `q` says to the one that `p` says. -/
def copyLoop (src : Memory) (p q : Nat → Nat) : Nat → Memory → Memory
  | 0, mem => mem
  | j + 1, mem =>
    let mem := copyLoop src p q j mem
    Function.update mem (p j) (src (q j))

/-- A loop that writes 0xff to the places that `p` says, from the one of `k` on. -/
def extendLoop (p : Nat → Nat) (k : Nat) : Nat → Memory → Memory
  | 0, mem => mem
  | j + 1, mem => Function.update (extendLoop p k j mem) (p (k + j)) 255

/-- A loop over the elements. -/
def elements (turn : Nat → Memory → Memory) : Nat → Memory → Memory
  | 0, mem => mem
  | i + 1, mem => turn i (elements turn i mem)

section
variable (order : ByteOrder) (src : Memory) (s d : Nat) (pCopy : BlockCopy)

/-- The byte `j` of the element `i` at which the copies of an integer read, on a little-endian host,
from the host or to it. -/
def srcByte (i j : Nat) : Nat :=
  match order with
  | .little => pCopy.src + s * i + j
  | .big => if pCopy.flag = 0 then pCopy.src + s * (i + 1) - 1 - j else pCopy.src + s * i + j

def dstByte (i j : Nat) : Nat :=
  match order with
  | .little => pCopy.dst + d * i + j
  | .big => if pCopy.flag = 0 then pCopy.dst + d * i + j else pCopy.dst + d * (i + 1) - 1 - j

def unsignedIntCopy (mem : Memory) : Memory :=
  if s = d ∧ order = .little then memcpy mem pCopy.dst src pCopy.src (pCopy.num * d)
  else
    elements (fun i => copyLoop src (dstByte order d pCopy i) (srcByte order s pCopy i) (min s d))
      pCopy.num mem

/-- The byte that signed_int_copy takes for that of the sign. -/
def signByte (i : Nat) : Nat :=
  match order with
  | .little => pCopy.src + s * i + (min s d - 1)
  | .big =>
    if pCopy.flag = 0 then pCopy.src + s * (i + 1) - 1 else pCopy.src + s * i + (min s d - 1)

def signedIntCopy (mem : Memory) : Memory :=
  if s = d ∧ order = .little then memcpy mem pCopy.dst src pCopy.src (pCopy.num * d)
  else
    elements (fun i mem =>
      let mem := copyLoop src (dstByte order d pCopy i) (srcByte order s pCopy i) (min s d) mem
      if min s d < d ∧ 128 ≤ (src (signByte order s d pCopy i)).toNat then
        extendLoop (dstByte order d pCopy i) (min s d) (d - min s d) mem
      else mem) pCopy.num mem

def pointCopy (b : Buffers) : Buffers :=
  if pCopy.flag = 0 then
    { dst := memset b.dst pCopy.dst 0 (pCopy.num * d)
      points := memcpy b.points (pointerLen * pCopy.points).toNat src pCopy.src
        (pCopy.num * pointerLen) }
  else
    { b with
      dst := memcpy b.dst pCopy.dst b.points (pointerLen * pCopy.points).toNat
        (pCopy.num * pointerLen) }

def floatCopy (mem : Memory) : Memory × Int :=
  if s ≠ d then (mem, -1)
  else if order = .little then (memcpy mem pCopy.dst src pCopy.src (pCopy.num * d), 0)
  else
    (elements (fun i => copyLoop src (dstByte order d pCopy i) (srcByte order s pCopy i) s)
      pCopy.num mem, 0)

end

section
variable (order : ByteOrder) (src : Memory) (srcType dstType : StructAll)

/-- A call of one of the copy functions. -/
def callCopyFunc (f : CopyFunc) (pCopy : BlockCopy) (b : Buffers) : Option (Buffers × Int) :=
  (getStructOne srcType pCopy.index).bind fun pOneSrc =>
    (getStructOne dstType pCopy.index).map fun pOneDst =>
      match f with
      | .unsignedIntCopy =>
        ({ b with dst := unsignedIntCopy order src pOneSrc.size pOneDst.size pCopy b.dst }, 0)
      | .signedIntCopy =>
        ({ b with dst := signedIntCopy order src pOneSrc.size pOneDst.size pCopy b.dst }, 0)
      | .pointCopy => (pointCopy src pOneDst.size pCopy b, 0)
      | .floatCopy =>
        let s := floatCopy order src pOneSrc.size pOneDst.size pCopy b.dst
        ({ b with dst := s.1 }, s.2)

end

section
variable {σ : Type} (copyFunc : CopyFunc → BlockCopy → σ → Option (σ × Int))
variable (srcType dstType : StructAll)

/-- The copy of a field of the element `i`. -/
def varCopy (pCopy : BlockCopy) (pOneSrc pOneDst : StructOne) (i : Nat) (pVarSrc pVarDst : Var) :
    BlockCopy :=
  { flag := pCopy.flag
    src := pCopy.src + i * pOneSrc.size + pVarSrc.addr
    dst := pCopy.dst + i * pOneDst.size + pVarDst.addr
    points := pCopy.points + i * pOneSrc.pointNum + pVarSrc.pointAddr
    index := pVarSrc.typeNum
    num := pVarSrc.size / pVarSrc.arrayElemSize }

/-- _get_block_copy, of which the calls of the copy functions are a parameter; none when it reads
outside of a table, divides by zero or does not come to an end. -/
def getBlockCopyOf (onlyPoints : Bool) : Nat → BlockCopy → σ → Option (σ × Int)
  | 0, _, _ => none
  | fuel + 1, pCopy, s =>
    (getStructOne srcType pCopy.index).bind fun pOneSrc =>
      (getStructOne dstType pCopy.index).bind fun pOneDst =>
        if onlyPoints ∧ pOneSrc.pointNum = 0 then some (s, 0)
        else
          match pOneSrc.copyFunc with
          | some f => copyFunc f pCopy s
          | none =>
            each (fun i => each (fun j s =>
              (pOneSrc.vars[j]?).bind fun pVarSrc => (pOneDst.vars[j]?).bind fun pVarDst =>
                if pVarSrc.arrayElemSize = 0 then none
                else getBlockCopyOf onlyPoints fuel
                  (varCopy pCopy pOneSrc pOneDst i pVarSrc pVarDst) s)
              (List.range pOneSrc.vars.length)) (List.range pCopy.num) s

end

/-- _get_block_copy -/
def _getBlockCopy (order : ByteOrder) (src : Memory) (srcType dstType : StructAll)
    (onlyPoints : Bool) (fuel : Nat) (pCopy : BlockCopy) (b : Buffers) : Option (Buffers × Int) :=
  getBlockCopyOf (callCopyFunc order src srcType dstType) srcType dstType onlyPoints fuel pCopy b

/-- get_block_copy; `same` says that the checksums of the two tables are equal. -/
def getBlockCopy (order : ByteOrder) (src : Memory) (srcType dstType : StructAll) (same : Bool)
    (fuel : Nat) (pCopy : BlockCopy) (b : Buffers) : Option (Buffers × Int) :=
  if pCopy.index < 0 ∨ (srcType.length : Int) ≤ pCopy.index then some (b, -1)
  else
    (getStructOne dstType pCopy.index).bind fun pOneDst =>
      if same then
        _getBlockCopy order src srcType dstType true fuel pCopy
          { b with dst := memcpy b.dst pCopy.dst src pCopy.src (pOneDst.size * pCopy.num) }
      else _getBlockCopy order src srcType dstType false fuel pCopy b

end MoonInWater.Sync.Copy
