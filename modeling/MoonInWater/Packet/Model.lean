import MoonInWater.Lib.CInt
import MoonInWater.Lib.Block
import Mathlib.Logic.Function.Basic

/-! The packets of moon_packet2.c: arrays of descriptors with free room on both sides. -/
namespace MoonInWater.Packet
open CInt Block

/-- buf_desc_s; a buffer is its address. -/
structure BufDesc where
  buf : Nat
  offset : Int
  len : Int
deriving DecidableEq

/-- buf_head_s with the descriptors behind it. What malloc leaves in a field is `none`. -/
structure BufHead where
  bufLen : Int
  curIndex : Nat
  lastIndex : Nat
  bufNum : Nat
  traverNextIndex : Option Nat
  splitNextIndex : Option Nat
  splitLen : Option Int
  descs : List (Option BufDesc)
deriving DecidableEq

/-- FREE_DESC_NUM and TOTAL_FREE_DESC_NUM -/
def freeDescNum : Nat := 8
def totalFreeDescNum : Nat := freeDescNum * 2

/-- The four fields that are set behind malloc. -/
def mallocHead (bufLen : Int) (lastIndex bufNum : Nat) : BufHead :=
  ⟨bufLen, freeDescNum, lastIndex, bufNum, none, none, none, List.replicate bufNum none⟩

/-- _add_buf_to_packet. The copy of `pDesc` goes into the block that the growth path allocates: on
the other two paths the pointer to it was never set. -/
def addDescs (pHead : Option BufHead) (pDesc : List (Option BufDesc)) (len : Int) :
    Option BufHead := do
  let head ← pHead
  let num := pDesc.length
  if head.curIndex < num then do
    let alreadyNum := head.lastIndex + 1 - head.curIndex
    let p := mallocHead (i32 (head.bufLen + len)) (freeDescNum + num + alreadyNum - 1)
      (totalFreeDescNum + num + alreadyNum)
    let already ← fetch head.descs head.curIndex alreadyNum
    let descs ← store p.descs (p.curIndex + num) already
    let descs ← store descs p.curIndex pDesc
    some { p with descs := descs }
  else none

/-- _append_buf_to_packet, with the same pointer. -/
def appendDescs (pHead : Option BufHead) (pDesc : List (Option BufDesc)) (len : Int) :
    Option BufHead := do
  let head ← pHead
  let num := pDesc.length
  if head.bufNum < head.lastIndex + 1 + num then do
    let alreadyNum := head.lastIndex + 1 - head.curIndex
    let p := mallocHead (i32 (head.bufLen + len)) (freeDescNum + num + alreadyNum - 1)
      (totalFreeDescNum + num + alreadyNum)
    let already ← fetch head.descs head.curIndex alreadyNum
    let descs ← store p.descs p.curIndex already
    let descs ← store descs (p.lastIndex + 1 - num) pDesc
    some { p with descs := descs }
  else none

/-- get_packet_len -/
def getPacketLen (pHead : Option BufHead) : Int := (pHead.map (·.bufLen)).getD 0

/-- begin_travel_packet -/
def beginTravelPacket (pHead : Option BufHead) : Option BufHead :=
  pHead.map fun head => { head with traverNextIndex := some head.curIndex }

/-- The return value of a call, and what it writes through `buf` and `p_len`. -/
structure Got where
  ret : Int
  data : Option (Int × Int)
deriving DecidableEq

/-- get_next_buf -/
def getNextBuf (pHead : Option BufHead) : Option (Option BufHead × Got) :=
  match pHead with
  | none => some (none, ⟨-1, none⟩)
  | some head =>
    if head.lastIndex < head.curIndex then some (some head, ⟨0, none⟩)
    else do
      let next ← head.traverNextIndex
      let pDesc ← load head.descs next
      some (some { head with traverNextIndex := some (next + 1) },
        ⟨pDesc.len, some (pDesc.buf + pDesc.offset, pDesc.len)⟩)

/-- The packets of a program, by its variables, and the `ref_num` of each packet_buf. -/
structure Store (V : Type) where
  packets : V → Option BufHead
  refs : Nat → Nat

section
variable {V : Type} [DecidableEq V]

/-- add_buf_to_packet -/
def addBufToPacket (s : Store V) (v : V) (pDesc : BufDesc) : Option (Store V × Int) :=
  if pDesc.buf = 0 ∨ pDesc.offset < 0 ∨ pDesc.len ≤ 0 then some (s, -1)
  else do
    let head ← addDescs (s.packets v) [some pDesc] pDesc.len
    some ({ s with packets := Function.update s.packets v (some head) }, 0)

/-- `p_buf->ref_num` with `p_buf = ( packet_buf )p_desc - 1`: the four bytes before the descriptor
are the length of the one before it, or the last field of the head. -/
def countBefore (head : BufHead) (i : Nat) : BufHead :=
  match i with
  | 0 => { head with splitLen := head.splitLen.map fun x => i32 (x + 1) }
  | i + 1 => { head with
      descs := head.descs.modify i (Option.map fun d => { d with len := i32 (d.len + 1) }) }

/-- merger_packet. A tail that is not copied is freed, and so is the head where it grows: a packet
that is its own tail is read after that. -/
def mergerPacket (s : Store V) (v w : V) (isCopy : Bool) : Option (Store V × Int) :=
  match s.packets v, s.packets w with
  | some head, some tail =>
    if v = w then none
    else do
      let needNum := tail.lastIndex + 1 - tail.curIndex
      let pDesc ← fetch tail.descs tail.curIndex needNum
      let head ← appendDescs (some head) pDesc tail.bufLen
      let packets := Function.update s.packets v (some head)
      if isCopy then
        let tail := (List.range' tail.curIndex needNum).foldl countBefore tail
        some ({ s with packets := Function.update packets w (some tail) }, 0)
      else some ({ s with packets := Function.update packets w none }, 0)
  | _, _ => some (s, -1)

end

/-- The loop of begin_split_packet over `n` descriptors from the index `i` on. -/
def findSplit : List (Option BufDesc) → Nat → Nat → Int → Option (Nat × Int)
  | _, 0, i, _ => some (i, 0)
  | [], _ + 1, _, _ => none
  | cell :: descs, n + 1, i, len => do
    let pDesc ← cell
    if len < pDesc.len then some (i, len)
    else findSplit descs n (i + 1) (len - pDesc.len)

/-- begin_split_packet -/
def beginSplitPacket (head : BufHead) (len : Int) : Option BufHead :=
  if head.bufLen ≤ len then
    some { head with splitNextIndex := some (head.lastIndex + 1), splitLen := some 0 }
  else if 0 < len then do
    let (i, splitLen) ← findSplit (head.descs.drop head.curIndex)
      (head.lastIndex + 1 - head.curIndex) head.curIndex len
    some { head with splitNextIndex := some i, splitLen := some splitLen }
  else some { head with splitNextIndex := some head.curIndex, splitLen := some 0 }

/-- The loop of get_next_packet over the descriptors behind the first one of a piece. -/
def scanPiece (leftLen : Int) : List (Option BufDesc) → Nat → Int → Int → Option (Nat × Int × Int)
  | [], i, tmp, sSplitLen => if tmp < leftLen then none else some (i, tmp, sSplitLen)
  | cell :: descs, i, tmp, sSplitLen =>
    if tmp < leftLen then do
      let pDesc ← cell
      scanPiece leftLen descs (i + 1) (i32 (tmp + pDesc.len)) (leftLen - tmp)
    else some (i, tmp, sSplitLen)

/-- What get_next_packet finds out about a piece before it allocates it. -/
structure Cut where
  leftLen : Int
  needBlocks : Nat
  sSplitNextIndex : Nat
  sSplitLen : Option Int

/-- A piece up to the end leaves `s_split_len` unset. -/
def cutPiece (head : BufHead) (splitNextIndex : Nat) (splitLen len : Int) : Option Cut :=
  if len ≤ 0 ∨ head.bufLen < len then
    some ⟨head.bufLen, head.lastIndex + 1 - splitNextIndex, head.lastIndex + 1, none⟩
  else do
    let pDesc ← load head.descs splitNextIndex
    let (i, tmp, sSplitLen) ← scanPiece len (head.descs.drop (splitNextIndex + 1))
      (splitNextIndex + 1) (pDesc.len - splitLen) (i32 (len + splitLen))
    if len < tmp then some ⟨len, i - splitNextIndex, i - 1, some sSplitLen⟩
    else some ⟨len, i - splitNextIndex, i, some 0⟩

/-- A piece that ends inside a descriptor: its last descriptor gets the length up to there, and the
first one loses what is in front of the piece, unless they are the same one. -/
def trimPiece (descs : List (Option BufDesc)) (first last : Nat) (splitLen sSplitLen : Int) :
    List (Option BufDesc) × Int :=
  if sSplitLen ≠ 0 then
    if last = first then
      (descs.modify first (Option.map fun d => { d with len := splitLen }), splitLen)
    else
      ((descs.modify first (Option.map fun d => { d with len := i32 (d.len - splitLen) })).modify
        last (Option.map fun d => { d with len := sSplitLen }), sSplitLen)
  else (descs, sSplitLen)

/-- The loop that takes a reference for each descriptor of a piece. -/
def takeRefs : List (Option BufDesc) → (Nat → Nat) → Option (Nat → Nat)
  | [], refs => some refs
  | cell :: descs, refs => do
    let pDesc ← cell
    takeRefs descs (Function.update refs pDesc.buf (refs pDesc.buf + 1))

/-- What a call of get_next_packet leaves. -/
structure Piece where
  ret : Int
  pHead : Option BufHead

/-- get_next_packet -/
def getNextPacket (refs : Nat → Nat) (head : BufHead) (len : Int) :
    Option (((Nat → Nat) × BufHead) × Piece) := do
  let splitNextIndex ← head.splitNextIndex
  let splitLen ← head.splitLen
  if head.lastIndex < splitNextIndex then some ((refs, head), ⟨0, none⟩)
  else do
    let cut ← cutPiece head splitNextIndex splitLen len
    let needBlocks := cut.needBlocks + totalFreeDescNum
    let p := mallocHead cut.leftLen (needBlocks - freeDescNum - 1) needBlocks
    let copied ← fetch head.descs splitNextIndex (p.lastIndex + 1 - p.curIndex)
    let descs ← store p.descs p.curIndex copied
    let descs := descs.modify p.curIndex
      (Option.map fun d => { d with offset := i32 (d.offset + splitLen) })
    let sSplitLen ← cut.sSplitLen
    let (descs, sSplitLen) := trimPiece descs p.curIndex p.lastIndex splitLen sSplitLen
    let own ← fetch descs p.curIndex (p.lastIndex + 1 - p.curIndex)
    let refs ← takeRefs own refs
    some ((refs, { head with
        splitNextIndex := some cut.sSplitNextIndex
        splitLen := some sSplitLen }),
      ⟨p.bufLen, some { p with descs := descs }⟩)

/-- dump_packet -/
def dumpPacket (refs : Nat → Nat) (head : BufHead) : Option (((Nat → Nat) × BufHead) × Piece) := do
  let head ← beginSplitPacket head 0
  getNextPacket refs head 0

/-- The loop of free_total_packet; a buffer without references is gone. It gives the buffers that
it frees. -/
def dropRefs : List (Option BufDesc) → (Nat → Nat) → Option ((Nat → Nat) × List Nat)
  | [], refs => some (refs, [])
  | cell :: descs, refs => do
    let pDesc ← cell
    if refs pDesc.buf = 0 then none
    else do
      let tmp := refs pDesc.buf - 1
      let (refs, freed) ← dropRefs descs (Function.update refs pDesc.buf tmp)
      some (refs, if tmp = 0 then pDesc.buf :: freed else freed)

/-- free_total_packet -/
def freeTotalPacket (refs : Nat → Nat) (head : BufHead) : Option ((Nat → Nat) × List Nat) := do
  let own ← fetch head.descs head.curIndex (head.lastIndex + 1 - head.curIndex)
  dropRefs own refs

end MoonInWater.Packet
