import MoonInWater.Sync.NewBlocks
import MoonInWater.Sync.VersionStatus

/-! What _create_new_version allocates, counts and stores from the lists of a packet on, and what
its error paths undo. -/
namespace MoonInWater.Sync.CreateVersion
open Pairs Commit
variable {P : Type}

/-- The memory of the call besides that of blocks. -/
inductive Cell where
  | delIds
  | writeIds
  | prevPairs
  | newIds
  | version
  | orderId
  | orderAddr
  | data
  | prevData
deriving DecidableEq

/-- What the call changes: the status and the user_num of the base version, the ref_num of blocks
that were there before, and the ones of them that are freed; `made` are the blocks and `cells` is
the other memory that it has allocated and not freed. -/
structure Heap (P : Type) where
  status : Int
  userNum : Int
  ref : P → Int
  freed : List P
  made : List (Made P)
  cells : List Cell

/-- How the work on the data section ends. -/
inductive DataEnd where
  | noHead
  | otherLength
  | notConverted
  | otherMd5
  | success
deriving DecidableEq

/-- Which allocations succeed, and how the work on the data section ends. -/
structure Env where
  prevPairs : Bool
  version : Bool
  orderId : Bool
  dump : Nat → Bool
  newBlock : Nat → Bool
  orderAddr : Bool
  data : Bool
  prevData : Bool
  dataEnd : DataEnd

/-- The lists of a packet; those of the deleted and the new blocks are there with HAS_DELS and
HAS_NEWS only. -/
structure Packet where
  hasNewId : Bool
  dels : Option (List Nat)
  writes : List WriteIds
  news : Option (List NewIds)

def Packet.delIds (pac : Packet) : List Nat := pac.dels.getD []

def Packet.newIds (pac : Packet) : List NewIds := pac.news.getD []

/-- How a call ends: with a store outside of order_id, with a pointer that is read before it is set
or is written through while it is NULL, or with its return value. -/
inductive Outcome (P : Type) where
  | outside
  | undefined
  | returned (success : Bool) (heap : Heap P)

def Heap.alloc (c : Cell) (h : Heap P) : Heap P := { h with cells := c :: h.cells }

/-- free, or IF_FREE of a pointer that is NULL where nothing was allocated. -/
def Heap.free (c : Cell) (h : Heap P) : Heap P := { h with cells := h.cells.filter (· ≠ c) }

/-- inc_version_user_num of a version that is not closed. -/
def Heap.incUser (h : Heap P) : Heap P :=
  { h with status := h.status + UseingRef.useingRefUnit, userNum := h.userNum + 1 }

def Heap.decUser (h : Heap P) : Heap P :=
  { h with status := VersionStatus.decValue h.status, userNum := h.userNum - 1 }

section
variable [DecidableEq P] (original : P → Option P)

/-- mem_block_ref_inc -/
def Heap.refInc (p : P) (h : Heap P) : Heap P :=
  { h with ref := Function.update h.ref p (h.ref p + 1) }

/-- mem_block_ref_dec, along a chain of originals of the given length. -/
def Heap.refDec : Nat → P → Heap P → Heap P
  | 0, _, h => h
  | n + 1, p, h =>
    let tmp := h.ref p - 1
    let h := { h with ref := Function.update h.ref p tmp }
    if tmp = 0 then
      let h := (original p).elim h fun o => Heap.refDec n o h
      { h with freed := p :: h.freed }
    else h

/-- p_original_block of the dump of a block. -/
def dumpOriginal (p : P) : P := (original p).getD p

/-- mem_block_surface_dump -/
def Heap.dump (p : P) (h : Heap P) : Heap P :=
  let h := h.refInc (dumpOriginal original p)
  { h with made := .dump p :: h.made }

/-- mem_block_ref_dec of an entry of order_id; the blocks that the call has made have the reference
of this entry only. The original of a dump has none itself. -/
def Heap.entryDec (h : Heap P) (e : Pairs.AddrPair (Option (Made P))) : Heap P :=
  match e.addr with
  | none => h
  | some (.kept p) => h.refDec original 2 p
  | some (.dump p) =>
    let h := h.refDec original 2 (dumpOriginal original p)
    { h with made := h.made.erase (.dump p) }
  | some made => { h with made := h.made.erase made }

/-- order_id of the new version with the rest of the memory. -/
structure Work (P : Type) where
  heap : Heap P
  order : Order P

/-- The loop over the base, with what stops it. -/
def mergeLoop (env : Env) (ix : Indexes) : List (Pairs.AddrPair P) → List Nat → List WriteIds →
    Nat → Nat → Work P → Work P × Option Failure
  | [], dels, writes, _, _, w =>
    (w, if dels = [] ∧ writes.length = 0 then none else some .packetError)
  | pair :: rest, dels, writes, k, n, w =>
    match turn pair.id dels writes with
    | .illegal => (w, some .packetError)
    | .del => mergeLoop env ix rest dels.tail writes k n w
    | .write =>
      if env.dump k then
        let heap := w.heap.dump original pair.addr
        let id := if ix.hasNewId then (writes.head?.map (·.newId)).getD 0 else ix.writeIdStart + k
        match store w.order (ix.writeIndex + k) id (.dump pair.addr) with
        | .error failure => (⟨heap, w.order⟩, some failure)
        | .ok order => mergeLoop env ix rest dels writes.tail (k + 1) n ⟨heap, order⟩
      else (w, some .packetError)
    | .keep =>
      let heap := w.heap.refInc pair.addr
      match store w.order n pair.id (.kept pair.addr) with
      | .error failure => (⟨heap, w.order⟩, some failure)
      | .ok order => mergeLoop env ix rest dels writes k (n + 1) ⟨heap, order⟩

/-- The loop over the new blocks, with what stops it. -/
def newLoop (all : StructAll) (env : Env) (ix : Indexes) (first : NewIds) : List NewIds → Nat →
    Work P → Work P × Option Failure
  | [], _, w => (w, none)
  | _ :: rest, i, w =>
    match createNewBlock all first.typeId first.typeNum with
    | none => (w, some .packetError)
    | some made =>
      if env.newBlock i then
        let heap := { w.heap with made := made :: w.heap.made }
        let id := if ix.hasNewId then first.id else ix.newIdStart + i
        match store w.order (ix.newIndex + i) id made with
        | .error failure => (⟨heap, w.order⟩, some failure)
        | .ok order => newLoop all env ix first rest (i + 1) ⟨heap, order⟩
      else (w, some .packetError)

/-- The end of the function from `back` on; p_data is read there, whether it has been set or not. -/
def back (dataSet success : Bool) (h : Heap P) : Outcome P :=
  let h := h.free .prevData
  let h := h.free .delIds
  let h := h.free .writeIds
  let h := h.free .prevPairs
  let h := h.free .newIds
  if dataSet then
    let h := h.free .data
    .returned success h.decUser
  else .undefined

/-- The path from `error` on. -/
def failed (dataSet : Bool) (w : Work P) : Outcome P :=
  let h := w.order.foldl (Heap.entryDec original) w.heap
  let h := h.free .orderId
  let h := h.free .orderAddr
  let h := h.free .version
  back dataSet false h

/-- The work on the data section; order_id is sorted before the md5 is compared. -/
def dataSection (env : Env) (hasNewId : Bool) (w : Work P) : Outcome P :=
  match env.dataEnd with
  | .noHead => failed original true w
  | .otherLength => failed original true w
  | dataEnd =>
    let h := if env.data then w.heap.alloc .data else w.heap
    let h := if env.prevData then h.alloc .prevData else h
    -- only prev_data is compared with NULL: the other test reads p_data, not p_data->data
    if !env.prevData then failed original true ⟨h, w.order⟩
    else if !env.data then .undefined
    else
      match dataEnd with
      | .notConverted => failed original true ⟨h, w.order⟩
      | _ =>
        match if hasNewId then Commit.qsort w.order else some w.order with
        | none => .outside
        | some order =>
          if dataEnd = .success then back true true h else failed original true ⟨h, order⟩

/-- Both loops over order_id of the new version. -/
def fillOrder (all : StructAll) (env : Env) (ix : Indexes) (orderId : List (Pairs.AddrPair P))
    (pac : Packet) (w : Work P) : Work P × Option Failure :=
  let merged := mergeLoop original env ix orderId pac.delIds pac.writes 0 0 w
  if merged.2.isSome then merged
  else
    match pac.newIds with
    | [] => merged
    | first :: _ => newLoop all env ix first pac.newIds 0 merged.1

/-- The lists of the packet are allocated as they are decoded, and prev_pairs behind those of the
written blocks. -/
def Heap.decodeLists (pac : Packet) (h : Heap P) : Heap P :=
  let h := if pac.dels.isSome then h.alloc .delIds else h
  let h := (h.alloc .writeIds).alloc .prevPairs
  if pac.news.isSome then h.alloc .newIds else h

/-- _create_new_version from the lists of the packet on. -/
def create (all : StructAll) (env : Env) (orderId : List (Pairs.AddrPair P)) (pac : Packet)
    (before : Heap P) : Outcome P :=
  match writeIdStart orderId with
  | none => .outside
  | some start =>
    let h := before.incUser
    if pac.writes.length = 0 ∨ !env.prevPairs then
      let h := if pac.dels.isSome then h.alloc .delIds else h
      back false false (h.alloc .writeIds)
    else
      let h := h.decodeLists pac
      let n : Int := orderId.length + pac.newIds.length - pac.delIds.length
      let m := pac.writes.length + pac.delIds.length
      if n < 0 ∨ orderId.length < m then back false false h
      else if !env.version ∨ !env.orderId then back false false h
      else
        let h := (h.alloc .version).alloc .orderId
        let ix := indexesOf pac.hasNewId start (orderId.length - m) pac.writes.length
        match fillOrder original all env ix orderId pac ⟨h, List.replicate n.toNat ⟨0, none⟩⟩ with
        | (_, some .outside) => .outside
        | (w, some .packetError) => failed original false w
        | (w, none) =>
          if !env.orderAddr then failed original false w
          else dataSection original env pac.hasNewId ⟨w.heap.alloc .orderAddr, w.order⟩

end
end MoonInWater.Sync.CreateVersion
