import MoonInWater.Sync.Pairs

/-! A commit: the changed blocks of a shadow in get_commit_packet, and the version that
_create_new_version makes of them. -/
namespace MoonInWater.Sync.Commit
open Pairs

/-- mem_block_s as to its place in a version. -/
structure MemBlock where
  id : Nat
  tmpId : Nat
  virtualAddr : Nat
  isDel : Bool
  typeId : Int
  typeNum : Int
deriving DecidableEq

/-- The table of struct types of one side, with get_struct_len and get_struct_points_num. -/
structure StructAll where
  structLen : Int → Int
  structPointsNum : Int → Int

/-- ID_OFFSET_LEN -/
def idOffsetLen : Int := 12

def getBlockbufLen (all : StructAll) (b : MemBlock) : Int :=
  let len := all.structLen b.typeId
  let points := all.structPointsNum b.typeId
  if len ≤ 0 ∨ points < 0 then -1 else b.typeNum * (len + points * idOffsetLen)

variable {P : Type}

/-- What pac1_func counts. -/
structure Counts where
  dels : Nat
  writes : Nat
  news : Nat
  writeBlockSize : Int
  newBlockSize : Int

def pac1Func (all : StructAll) (b : MemBlock) (c : Counts) : Option Counts :=
  let totalLen := getBlockbufLen all b
  if totalLen ≤ 0 then none
  else if b.id = 0 then
    some { c with news := c.news + 1, newBlockSize := c.newBlockSize + totalLen }
  else if b.isDel then some { c with dels := c.dels + 1 }
  else some { c with writes := c.writes + 1, writeBlockSize := c.writeBlockSize + totalLen }

/-- The pairs of the changes, with the blocks whose tmp_id they set. -/
structure Changes (P : Type) where
  dels : List (AddrPair P)
  writes : List (AddrPair P)
  prevs : List (AddrPair P)
  news : List (AddrPair P)
  blocks : P → MemBlock

variable [DecidableEq P]

def setTmpId (p : P) (id : Nat) (blocks : P → MemBlock) : P → MemBlock :=
  Function.update blocks p { blocks p with tmpId := id }

/-- pac2_func; `orderId` is that of the version. -/
def pac2Func (orderId : List (AddrPair P)) (newIdStart : Nat) (p : P) (s : Changes P) :
    Option (Changes P) :=
  let b := s.blocks p
  if b.id = 0 then
    let id := newIdStart + s.news.length
    some { s with blocks := setTmpId p id s.blocks, news := s.news ++ [⟨id, p⟩] }
  else if b.isDel then some { s with dels := s.dels ++ [⟨b.id, p⟩] }
  else
    match searchAddrId (orderId.length + 1) orderId b.id orderId.length with
    | some (some pair) =>
      if pair.id = b.id then
        some { s with
          writes := s.writes ++ [⟨b.id, p⟩]
          prevs := s.prevs ++ [⟨b.id, pair.addr⟩] }
      else none
    | _ => none

def qsort (pairs : List (AddrPair P)) : Option (List (AddrPair P)) :=
  qsortAddrPair (pairs.length + 1) 0 pairs.length pairs

/-- The loop that gives the written blocks their new ids. -/
def setWriteIds (blocks : P → MemBlock) : Nat → List (AddrPair P) → (P → MemBlock)
  | _, [] => blocks
  | id, pair :: rest => setWriteIds (setTmpId pair.addr id blocks) (id + 1) rest

/-- The first loop over MD5_Update: the blocks of the version that are neither deleted nor
written. -/
def md5Kept (blocks : P → MemBlock) :
    List (AddrPair P) → List (AddrPair P) → List (AddrPair P) → List P
  | [], _, _ => []
  | pair :: rest, dels, writes =>
    let id := (blocks pair.addr).id
    if dels.head?.map (·.id) = some id then md5Kept blocks rest dels.tail writes
    else if writes.head?.map (·.id) = some id then md5Kept blocks rest dels writes.tail
    else pair.addr :: md5Kept blocks rest dels writes

/-- What get_commit_packet makes of the tree of the shadow: the pairs in the order of the packet,
and the kept blocks that go into to_md5 before the written and the new ones. -/
structure Sent (P : Type) extends Changes P where
  kept : List P

/-- The last id of the version, plus one. -/
def writeIdStart (orderId : List (AddrPair P)) : Option Nat := orderId.getLast?.map (·.id + 1)

/-- get_commit_packet up to to_md5; `tree` are the blocks of tp->avl in the order of its
traversal. -/
def getCommit (all : StructAll) (orderId : List (AddrPair P)) (tree : List P)
    (blocks : P → MemBlock) : Option (Sent P) := do
  let counts ← tree.foldlM (fun c p => pac1Func all (blocks p) c) ⟨0, 0, 0, 0, 0⟩
  if counts.writes = 0 then none
  else do
    let start ← writeIdStart orderId
    let changes ← tree.foldlM (fun s p => pac2Func orderId (start + counts.writes) p s)
      ⟨[], [], [], [], blocks⟩
    let dels ← qsort changes.dels
    let writes ← qsort changes.writes
    let prevs ← qsort changes.prevs
    let blocks := setWriteIds changes.blocks start writes
    some ⟨⟨dels, writes, prevs, changes.news, blocks⟩, md5Kept blocks orderId dels writes⟩

/-- The entries of id_array for a written block, the second with HAS_NEW_ID only. -/
structure WriteIds where
  id : Nat
  newId : Nat

/-- The entries of id_array for a new block, the last with HAS_NEW_ID only. -/
structure NewIds where
  typeId : Int
  typeNum : Int
  id : Nat

/-- A block of the new version: one of the base, a surface dump of one, or a new one. -/
inductive Made (P : Type) where
  | kept (p : P)
  | dump (p : P)
  | created (typeId typeNum : Int)
deriving DecidableEq

/-- order_id of the new version; the places not stored yet are zero. -/
abbrev Order (P : Type) := List (AddrPair (Option (Made P)))

/-- A store outside the array, or MOON_PACKET_ERROR. -/
inductive Failure where
  | outside
  | packetError
deriving DecidableEq

def store (order : Order P) (i : Nat) (id : Nat) (made : Made P) : Except Failure (Order P) :=
  if i < order.length then .ok (order.set i ⟨id, some made⟩) else .error .outside

/-- What the loop over the base does with a block. -/
inductive Turn where
  | illegal
  | del
  | write
  | keep

def turn (id : Nat) (dels : List Nat) (writes : List WriteIds) : Turn :=
  let turnWrite : Turn :=
    match writes with
    | [] => .keep
    | w :: _ => if w.id < id then .illegal else if w.id = id then .write else .keep
  match dels with
  | [] => turnWrite
  | d :: _ => if d < id then .illegal else if d = id then .del else turnWrite

/-- The flags and starts of the loops of _create_new_version. -/
structure Indexes where
  hasNewId : Bool
  writeIdStart : Nat
  newIdStart : Nat
  writeIndex : Nat
  newIndex : Nat

/-- The loop over the base; `k` writes and `n` kept blocks have been stored. -/
def mergeBase (ix : Indexes) : List (AddrPair P) → List Nat → List WriteIds → Nat → Nat →
    Order P → Except Failure (Order P)
  | [], dels, writes, _, _, order =>
    if dels = [] ∧ writes.length = 0 then .ok order else .error .packetError
  | pair :: rest, dels, writes, k, n, order =>
    match turn pair.id dels writes with
    | .illegal => .error .packetError
    | .del => mergeBase ix rest dels.tail writes k n order
    | .write => do
      let id := if ix.hasNewId then (writes.head?.map (·.newId)).getD 0 else ix.writeIdStart + k
      let order ← store order (ix.writeIndex + k) id (.dump pair.addr)
      mergeBase ix rest dels writes.tail (k + 1) n order
    | .keep => do
      let order ← store order n pair.id (.kept pair.addr)
      mergeBase ix rest dels writes k (n + 1) order

/-- create_new_block; NULL for a type without a length. -/
def createNewBlock (all : StructAll) (typeId typeNum : Int) : Option (Made P) :=
  if all.structLen typeId * typeNum ≤ 0 then none else some (.created typeId typeNum)

/-- The loop over the new blocks: each is made of `first`, which p_new->p_ids points to. -/
def createNews (all : StructAll) (ix : Indexes) (first : NewIds) : List NewIds → Nat → Order P →
    Except Failure (Order P)
  | [], _, order => .ok order
  | _ :: rest, i, order =>
    match createNewBlock all first.typeId first.typeNum with
    | none => .error .packetError
    | some made => do
      let id := if ix.hasNewId then first.id else ix.newIdStart + i
      let order ← store order (ix.newIndex + i) id made
      createNews all ix first rest (i + 1) order

/-- _create_new_version up to order_id of the new version, from the lists of the packet. -/
def createNewVersion (all : StructAll) (orderId : List (AddrPair P)) (hasNewId : Bool)
    (dels : List Nat) (writes : List WriteIds) (news : List NewIds) :
    Except Failure (Order P) :=
  match writeIdStart orderId with
  | none => .error .outside
  | some start =>
    if writes.length = 0 then .error .packetError
    else
      let n : Int := orderId.length + news.length - dels.length
      let m := writes.length + dels.length
      if n < 0 ∨ orderId.length < m then .error .packetError
      else do
        let writeIndex := orderId.length - m
        let ix := ⟨hasNewId, start, start + writes.length, writeIndex, writeIndex + writes.length⟩
        let order ← mergeBase ix orderId dels writes 0 0 (List.replicate n.toNat ⟨0, none⟩)
        let order ←
          match news with
          | [] => .ok order
          | first :: _ => createNews all ix first news 0 order
        if hasNewId then
          match qsortAddrPair (order.length + 1) 0 order.length order with
          | none => .error .outside
          | some order => .ok order
        else .ok order

end MoonInWater.Sync.Commit
