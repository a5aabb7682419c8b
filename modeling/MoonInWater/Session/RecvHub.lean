import MoonInWater.Lib.Fuel
import MoonInWater.Lib.Segment

/-! The hub of received packets: chains of blocks in counted buffers, which are appended at the
tail and taken from the head. -/
namespace MoonInWater.Session.RecvHub
open Chain Fuel
variable {P B : Type}

def isReady : BitVec 16 := 0x1
def isHead : BitVec 16 := 0x2
def isTail : BitVec 16 := 0x4

/-- rs_block_s with the bytes behind it, `len` of them, and the buffer that BLOCK_TO_BUF finds
through its offset. -/
structure RsBlock (P B : Type) where
  buf : B
  payload : List UInt8
  flags : BitVec 16
  next : Option P

def RsBlock.len (b : RsBlock P B) : Int := b.payload.length

/-- rs_buf_hub_s without its common buffers. -/
structure RsBufHub (P : Type) where
  totalLen : Int
  pHead : Option P
  pTail : Option P
  headOffset : Int

/-- The hub of a stream, its blocks, and `ref_num` and `len` of their buffers. -/
structure State (P B : Type) where
  block : P → RsBlock P B
  refNum : B → Nat
  bufLen : B → Nat
  memUsed : Int
  hub : RsBufHub P

def State.next (s : State P B) (p : P) : Option P := (s.block p).next

/-- A block is there until its buffer is freed, with the last reference. -/
def State.read (s : State P B) (p : P) : Option (RsBlock P B) :=
  if 0 < s.refNum (s.block p).buf then some (s.block p) else none

section references
variable [DecidableEq B]

def State.rsBufRefInc (b : B) (s : State P B) : State P B :=
  { s with refNum := Function.update s.refNum b (s.refNum b + 1) }

def State.rsBufRefDec (b : B) (s : State P B) : State P B × Nat :=
  let s := { s with refNum := Function.update s.refNum b (s.refNum b - 1) }
  (s, if s.refNum b = 0 then s.bufLen b else 0)

def State.streamRsbufFree (b : B) (s : State P B) : State P B :=
  let (s, len) := s.rsBufRefDec b
  if 0 < len then { s with memUsed := s.memUsed - len } else s

end references

section walks
variable [DecidableEq P]

def State.setNext (p : P) (value : Option P) (s : State P B) : State P B :=
  let b := { s.block p with next := value }
  { s with block := Function.update s.block p b }

/-- `p_block->flags |= IS_HEAD | IS_READY` -/
def State.mark (p : P) (s : State P B) : State P B :=
  let b := { s.block p with flags := (s.block p).flags ||| (isHead ||| isReady) }
  { s with block := Function.update s.block p b }

/-- The loop of get_from_head: the block that ends the packet, and the packet's length. -/
def headLoop (s : State P B) : Nat → P → Int → Option (P × Int)
  | 0, _, _ => none
  | fuel + 1, p, len => do
    let b ← s.read p
    if b.flags &&& isTail = 0 then headLoop s fuel (← b.next) (len + b.len)
    else some (p, len + b.len)

def getFromHead (fuel : Nat) (s : State P B) : Option (State P B × Option P) :=
  match s.hub.pHead with
  | none => some (s, none)
  | some p => do
    let b ← s.read p
    if b.flags &&& (isReady ||| isHead) = (isHead ||| isHead) then
      let (last, len) ← headLoop s fuel p 0
      let head := (s.block last).next
      some ({ s.setNext last none with hub := { s.hub with
        pHead := head
        pTail := if head = none then none else s.hub.pTail
        totalLen := s.hub.totalLen - len } }, some p)
    else some (s, none)

variable [DecidableEq B]

/-- The loop of get_from_head_len, with its exits: inside a block, behind the packet's last block,
and behind another one. -/
def headLenLoop (len : Int) : Nat → State P B → P → Int → Int → Option (State P B × Int)
  | 0, _, _, _, _ => none
  | fuel + 1, s, p, offset, curLen => do
    let b ← s.read p
    let tmp := b.len - offset
    if len < curLen + tmp then
      some ({ (s.rsBufRefInc b.buf).mark p with hub := { s.hub with
        headOffset := len - curLen + offset
        pHead := some p } }, len)
    else if b.flags &&& isTail ≠ 0 then
      some ({ s.setNext p none with hub := { s.hub with
        headOffset := 0
        pHead := b.next } }, curLen + tmp)
    else
      -- the next block is written or read here, which NULL would not allow
      let q ← b.next
      let _ ← s.read q
      if curLen + tmp = len then
        some ({ (s.setNext p none).mark q with hub := { s.hub with
          headOffset := 0
          pHead := some q } }, curLen + tmp)
      else headLenLoop len fuel s q 0 (curLen + tmp)

/-- `stale` is what the local p_block_head holds before anything is assigned to it. -/
def getFromHeadLen (stale : Option P) (len : Int) (fuel : Nat) (s : State P B) :
    Option (State P B × Option P × Int) :=
  let offset := s.hub.headOffset
  match s.hub.pHead with
  | none => some (s, stale, offset)
  | some p => do
    let b ← s.read p
    if b.flags &&& (isReady ||| isHead) = (isHead ||| isReady) then
      let (s, curLen) ← headLenLoop len fuel s p offset 0
      some ({ s with hub := { s.hub with
        totalLen := s.hub.totalLen - curLen
        pTail := if s.hub.pHead = none then none else s.hub.pTail } }, some p, offset)
    else some (s, stale, offset)

/-- The loop of append_to_tail: the last block of a chain, and the chain's length. -/
def lastLoop (s : State P B) : Nat → P → Int → Option (P × Int)
  | 0, _, _ => none
  | fuel + 1, p, len => do
    let b ← s.read p
    match b.next with
    | some q => lastLoop s fuel q (len + b.len)
    | none => some (p, len + b.len)

def appendToTail (fuel : Nat) (p : P) (s : State P B) : Option (State P B) := do
  let (last, len) ← lastLoop s fuel p 0
  let hub := { s.hub with pTail := some last, totalLen := s.hub.totalLen + len }
  match s.hub.pTail with
  | some tail =>
    let _ ← s.read tail
    some { s.setNext tail (some p) with hub := hub }
  | none => some { s with hub := { hub with pHead := some p } }

/-- The bytes from `offset` on that memcpy takes from behind a block. -/
def RsBlock.copy (b : RsBlock P B) (offset tmp : Int) : Option (List UInt8) :=
  if 0 ≤ offset ∧ 0 ≤ tmp then some ((b.payload.drop offset.toNat).take tmp.toNat) else none

/-- The inner loop of stream_recv: what it copies out of a chain of blocks, which it frees. -/
def recvLoop (len : Int) : Nat → State P B → P → Int → Int → Option (State P B × List UInt8)
  | 0, _, _, _, _ => none
  | fuel + 1, s, p, offset, fetchLen => do
    let b ← s.read p
    let tmp := min (len - fetchLen) (b.len - offset)
    let bytes ← b.copy offset tmp
    let s := s.streamRsbufFree b.buf
    match b.next with
    | some q =>
      if fetchLen + tmp < len then
        let (s, more) ← recvLoop len fuel s q 0 (fetchLen + tmp)
        some (s, bytes ++ more)
      else some (s, bytes)
    | none => some (s, bytes)

/-- One turn of stream_recv, which has fetched `fetchLen` of `len` bytes. -/
def recvTurn (stale : Option P) (len fetchLen : Int) (fuel : Nat) (s : State P B) :
    Option (State P B × List UInt8) := do
  let (s, head, offset) ← getFromHeadLen stale (len - fetchLen) fuel s
  match head with
  | none => some (s, [])
  | some p => recvLoop len fuel s p offset fetchLen

end walks

/-- The flags of the blocks of one packet: the last block, and no other, is marked as its tail. -/
def Ends : List (BitVec 16) → Prop
  | [] => False
  | [f] => f &&& isTail ≠ 0
  | f :: g :: l => f &&& isTail = 0 ∧ Ends (g :: l)

def flags (block : P → RsBlock P B) (l : List P) : List (BitVec 16) :=
  l.map fun p => (block p).flags

/-- The bytes behind the blocks. -/
def bytes (block : P → RsBlock P B) (l : List P) : List UInt8 :=
  l.flatMap fun p => (block p).payload

/-- The hub holds packets, each of one or more blocks that are not freed. -/
structure HoldsPackets (s : State P B) (packets : List (List P)) : Prop where
  chain : Segment s.next s.hub.pHead packets.flatten none
  distinct : packets.flatten.Nodup
  pTail : s.hub.pTail = packets.flatten.getLast?
  ends : ∀ l ∈ packets, Ends (flags s.block l)
  heads : ∀ l ∈ packets, ∀ p ∈ l.head?, (s.block p).flags &&& isHead ≠ 0
  filled : ∀ p ∈ packets.flatten, (s.block p).payload ≠ []
  live : ∀ p ∈ packets.flatten, 0 < s.refNum (s.block p).buf

section blocks
variable [DecidableEq P] {s : State P B} {p q : P} {value : Option P}

theorem setNext_self : (s.setNext p value).block p = { s.block p with next := value } :=
  Function.update_self ..

theorem setNext_apart (apart : q ≠ p) : (s.setNext p value).block q = s.block q :=
  Function.update_of_ne apart ..

theorem mark_self : (s.mark p).block p =
    { s.block p with flags := (s.block p).flags ||| (isHead ||| isReady) } :=
  Function.update_self ..

theorem mark_flags :
    ((s.mark p).block p).flags = (s.block p).flags ||| (isHead ||| isReady) := by rw [mark_self]

theorem mark_apart (apart : q ≠ p) : (s.mark p).block q = s.block q :=
  Function.update_of_ne apart ..

@[simp] theorem setNext_buf : ((s.setNext p value).block q).buf = (s.block q).buf := by
  by_cases same : q = p
  · subst q
    rw [setNext_self]
  · rw [setNext_apart same]

@[simp] theorem setNext_payload : ((s.setNext p value).block q).payload = (s.block q).payload := by
  by_cases same : q = p
  · subst q
    rw [setNext_self]
  · rw [setNext_apart same]

@[simp] theorem setNext_flags : ((s.setNext p value).block q).flags = (s.block q).flags := by
  by_cases same : q = p
  · subst q
    rw [setNext_self]
  · rw [setNext_apart same]

@[simp] theorem mark_buf : ((s.mark p).block q).buf = (s.block q).buf := by
  by_cases same : q = p
  · subst q
    rw [mark_self]
  · rw [mark_apart same]

@[simp] theorem mark_payload : ((s.mark p).block q).payload = (s.block q).payload := by
  by_cases same : q = p
  · subst q
    rw [mark_self]
  · rw [mark_apart same]

@[simp] theorem mark_next : ((s.mark p).block q).next = (s.block q).next := by
  by_cases same : q = p
  · subst q
    rw [mark_self]
  · rw [mark_apart same]

end blocks

@[simp] theorem bytes_nil (block : P → RsBlock P B) : bytes block [] = [] := rfl

@[simp] theorem bytes_cons (block : P → RsBlock P B) (p : P) (l : List P) :
    bytes block (p :: l) = (block p).payload ++ bytes block l := rfl

@[simp] theorem bytes_append (block : P → RsBlock P B) (l r : List P) :
    bytes block (l ++ r) = bytes block l ++ bytes block r := List.flatMap_append ..

/-- The buffers of blocks. -/
def bufs (block : P → RsBlock P B) (l : List P) : List B := l.map fun p => (block p).buf

@[simp] theorem bufs_append (block : P → RsBlock P B) (l r : List P) :
    bufs block (l ++ r) = bufs block l ++ bufs block r := List.map_append ..

section
variable {block block' : P → RsBlock P B} {l : List P} (same : ∀ p ∈ l, block' p = block p)
include same

theorem bufs_congr : bufs block' l = bufs block l :=
  List.map_congr_left fun p member => congrArg RsBlock.buf (same p member)

theorem flags_congr : flags block' l = flags block l :=
  List.map_congr_left fun p member => congrArg RsBlock.flags (same p member)

theorem bytes_congr : bytes block' l = bytes block l :=
  List.flatMap_congr fun p member => congrArg RsBlock.payload (same p member)

end

theorem filled_bytes {block : P → RsBlock P B} (filled : (block p).payload ≠ []) (l : List P) :
    (bytes block l).length < (bytes block (l ++ [p])).length := by
  have one := List.length_pos_iff.mpr filled
  simp only [bytes_append, bytes_cons, bytes_nil, List.append_nil, List.length_append]
  omega

theorem State.read_live {s : State P B} (live : 0 < s.refNum (s.block p).buf) :
    s.read p = some (s.block p) := if_pos live

theorem Ends.exists_cons {block : P → RsBlock P B} (ends : Ends (flags block l)) :
    ∃ p r, l = p :: r := by
  cases l with
  | nil => exact ends.elim
  | cons p r => exact ⟨p, r, rfl⟩

/-- The first block of the hub is the first one of its first packet. -/
theorem HoldsPackets.pHead {s : State P B} (holds : HoldsPackets s packets) :
    s.hub.pHead = packets.head?.bind List.head? := by
  rw [holds.chain.first_eq, Option.or_none]
  cases packets with
  | nil => rfl
  | cons l rest =>
    obtain ⟨p, r, rfl⟩ := (holds.ends l List.mem_cons_self).exists_cons
    rfl

end MoonInWater.Session.RecvHub
