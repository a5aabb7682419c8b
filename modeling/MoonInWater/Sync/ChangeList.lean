import MoonInWater.Sync.MoonNum
import MoonInWater.Sync.Commit
import MoonInWater.Lib.CInt

/-! The lists of changed blocks in a packet: their encoders, which write over the pairs that
they read, and their decoders. -/
namespace MoonInWater.Sync.ChangeList
open Endian Bytes MoonNum Commit CInt

/-- packet_change_s of a sender; `pairs` and `prev_pairs` are addresses of arrays. -/
structure PacketChange where
  num : Int
  len : Int
  dataPtr : Nat
  pairs : Nat
  prevPairs : Nat

/-- sizeof( addr_pair_s ), and the offset of `addr` in it. -/
def pairLen : Nat := 16

def addrOffset : Nat := 8

/-- CHANG_ELEM_HEAD -/
def changElemHead : Nat := 8

def pairsSize (num : Nat) : Nat := num * pairLen

def delsMaxSize (num : Nat) : Nat := 8 * num

def writesMaxSize (num : Nat) : Nat := 8 * (num * 2)

def newsMaxSize (num : Nat) : Nat := 8 * (num * 3)

/-- The lists of deleted, written and new blocks. -/
structure Changes where
  del : PacketChange
  write : PacketChange
  new : PacketChange

/-- The places of the lists in `buf`, as get_commit_packet and get_update_packet lay them out. -/
def layOut (buf dels writes news : Nat) : Changes :=
  let pc := buf
  let delData := pc
  let pc := pc + (changElemHead + max (pairsSize dels) (delsMaxSize dels))
  let delPairs := pc - pairsSize dels
  let writeData := pc
  let pc := pc + (changElemHead + max (pairsSize writes) (writesMaxSize writes))
  let writePairs := pc - pairsSize writes
  let prevPairs := pc
  let pc := pc + pairsSize writes
  let newData := pc
  let pc := pc + (changElemHead + max (pairsSize news) (newsMaxSize news))
  let newPairs := pc - pairsSize news
  { del := ⟨dels, 0, delData, delPairs, 0⟩
    write := ⟨writes, 0, writeData, writePairs, prevPairs⟩
    new := ⟨news, 0, newData, newPairs, 0⟩ }

/-- `pairs[ i ].addr` -/
def pairAddr (order : ByteOrder) (mem : Memory) (pairs i : Nat) : Nat :=
  load order (read mem (pairs + pairLen * i + addrOffset) 8)

/-- The difference of two numbers of 64 bits. -/
def sub64 (a b : Nat) : Nat := (u64 (a - b)).toNat

/-- An int as a number of 64 bits. -/
def toU64 (x : Int) : Nat := (u64 x).toNat

def convertAll (order : ByteOrder) : List Nat → Cursor → Cursor × Int
  | [], c => (c, 0)
  | num :: nums, c =>
    let (c, ret) := convertToMoonNum order num c
    if ret < 0 then (c, -1) else convertAll order nums c

/-- What a round of an encoder reads: from the memory, its index and `prev_64`, the next
`prev_64` and the numbers that it writes. -/
abbrev Round := Memory → Nat → Nat → Nat × List Nat

def packetRounds (order : ByteOrder) (round : Round) : Nat → Nat → Nat → Cursor → Cursor × Int
  | 0, _, _, c => (c, 0)
  | rounds + 1, i, prev, c =>
    let (prev, nums) := round c.mem i prev
    let (c, ret) := convertAll order nums c
    if ret < 0 then (c, -1) else packetRounds order round rounds (i + 1) prev c

/-- The encoders: the number of the elements, then one round for each. -/
def packetData (order : ByteOrder) (round : Round) (num : Int) (c : Cursor) : Cursor × Int :=
  let (c, ret) := convertToMoonNum order (toU64 num) c
  if ret < 0 then (c, -1) else packetRounds order round num.toNat 0 0 c

section encoders
variable (order : ByteOrder) (blocks : Nat → MemBlock) (change : PacketChange)

def delRound : Round := fun mem i prev =>
  let block := blocks (pairAddr order mem change.pairs i)
  (block.id, [sub64 block.id prev])

def newRound : Round := fun mem i prev =>
  let block := blocks (pairAddr order mem change.pairs i)
  (prev, [toU64 block.typeId, toU64 block.typeNum])

def writeIdRound : Round := fun mem i prev =>
  let block := blocks (pairAddr order mem change.prevPairs i)
  let tmp := sub64 block.id prev
  let prev := block.id
  let block := blocks (pairAddr order mem change.pairs i)
  (prev, [tmp, sub64 block.id prev])

def newIdRound : Round := fun mem i prev =>
  let block := blocks (pairAddr order mem change.pairs i)
  (block.id, [toU64 block.typeId, toU64 block.typeNum, sub64 block.id prev])

def packetDelData (mem : Memory) : Cursor × Int :=
  packetData order (delRound order blocks change) change.num ⟨mem, change.dataPtr, change.len⟩

def packetNewData (mem : Memory) : Cursor × Int :=
  packetData order (newRound order blocks change) change.num ⟨mem, change.dataPtr, change.len⟩

def packetWriteDataId (mem : Memory) : Cursor × Int :=
  packetData order (writeIdRound order blocks change) change.num ⟨mem, change.dataPtr, 0⟩

def packetNewDataId (mem : Memory) : Cursor × Int :=
  packetData order (newIdRound order blocks change) change.num ⟨mem, change.dataPtr, 0⟩

end encoders

/-- sizeof( *p_change->p_ids ) -/
def idsLen : Nat := 24

/-- What a decoder leaves: the words written to the `id_array` of each element, from the first
one on, in an array of `len` bytes. -/
structure Unpacked where
  ret : Int
  num : Int
  len : Int
  ids : Nat → Option (List Nat)
  rest : List UInt8

def getNums (order : ByteOrder) : Nat → List UInt8 → Int × List Nat × List UInt8
  | 0, bytes => (0, [], bytes)
  | count + 1, bytes =>
    let (ret, num, bytes) := getFromMoonNum order bytes
    if ret < 0 then (-1, [], bytes) else
    let (ret, nums, bytes) := getNums order count bytes
    (ret, num :: nums, bytes)

/-- The loop of a decoder, which takes `fields` numbers in each round; `elem` makes the words of
the element of them and of the sum so far. -/
def unpackElems (order : ByteOrder) (fields : Nat) (elem : Nat → List Nat → Nat × List Nat) :
    Nat → Nat → Nat → (Nat → Option (List Nat)) → List UInt8 →
      Int × (Nat → Option (List Nat)) × List UInt8
  | 0, _, _, ids, bytes => (0, ids, bytes)
  | rounds + 1, i, sum, ids, bytes =>
    let (ret, nums, bytes) := getNums order fields bytes
    if ret < 0 then (-1, ids, bytes) else
    let (sum, words) := elem sum nums
    unpackElems order fields elem rounds (i + 1) sum (Function.update ids i (some words)) bytes

/-- The array of a decoder and its loop; `malloc` says for each size whether there is memory. -/
def unpackArray (order : ByteOrder) (malloc : Nat → Bool) (fields : Nat)
    (elem : Nat → List Nat → Nat × List Nat) (num : Int) (bytes : List UInt8) : Unpacked :=
  let len := i32 (u64 (idsLen * num))
  if malloc (toU64 len) then
    let run := unpackElems order fields elem num.toNat 0 0 (fun _ => none) bytes
    ⟨run.1, num, len, run.2.1, run.2.2⟩
  else ⟨-1, num, len, fun _ => none, bytes⟩

/-- The decoders, in front of which the number of the elements stands. -/
def unpackData (order : ByteOrder) (malloc : Nat → Bool) (fields : Nat)
    (elem : Nat → List Nat → Nat × List Nat) (bytes : List UInt8) : Unpacked :=
  let (ret, num, bytes) := getFromMoonNum order bytes
  if ret < 0 then ⟨-1, 0, 0, fun _ => none, bytes⟩
  else unpackArray order malloc fields elem (i32 num) bytes

/-- The sum of two numbers of 64 bits. -/
def add64 (a b : Nat) : Nat := (a + b) % 2 ^ 64

def delElem (sum : Nat) (nums : List Nat) : Nat × List Nat :=
  let sum := add64 sum (nums.getD 0 0)
  (sum, [sum])

def newElem (sum : Nat) (nums : List Nat) : Nat × List Nat := (sum, nums)

def newIdElem (sum : Nat) (nums : List Nat) : Nat × List Nat :=
  let sum := add64 sum (nums.getD 2 0)
  (sum, [nums.getD 0 0, nums.getD 1 0, sum])

def writeIdElem (sum : Nat) (nums : List Nat) : Nat × List Nat :=
  let sum := add64 sum (nums.getD 0 0)
  (sum, [sum, add64 (nums.getD 1 0) sum])

section decoders
variable (order : ByteOrder) (malloc : Nat → Bool)

def unpackDelData : List UInt8 → Unpacked := unpackData order malloc 1 delElem

def unpackNewData : List UInt8 → Unpacked := unpackData order malloc 2 newElem

def unpackNewDataId : List UInt8 → Unpacked := unpackData order malloc 3 newIdElem

def unpackWriteDataId : List UInt8 → Unpacked := unpackData order malloc 2 writeIdElem

end decoders

/-- The bytes of some numbers. -/
def numsBytes (nums : List Nat) : List UInt8 := nums.flatMap moonBytes

theorem numsBytes_cons (n : Nat) (nums : List Nat) :
    numsBytes (n :: nums) = moonBytes n ++ numsBytes nums := rfl

theorem numsBytes_length (nums : List Nat) : (numsBytes nums).length ≤ 8 * nums.length := by
  induction nums with
  | nil => exact Nat.le_refl 0
  | cons n nums ih =>
    have bounds := moonBytes_bounds n
    rw [numsBytes_cons, List.length_append, List.length_cons]
    omega

section encode
variable {order : ByteOrder} {c : Cursor} {mem : Memory} {nums : List Nat}

theorem convertAll_spec (small : ∀ n ∈ nums, n < 2 ^ 62) :
    convertAll order nums c = (c.put (numsBytes nums), 0) := by
  induction nums generalizing c with
  | nil => exact congrArg (·, (0 : Int)) c.put_nil.symm
  | cons n nums ih =>
    rw [convertAll, convertToMoonNum_spec (small n List.mem_cons_self)]
    simp only [Int.lt_irrefl, if_false]
    rw [ih fun m member => small m (List.mem_cons_of_mem n member), numsBytes_cons,
      Cursor.put_append]

/-- The bytes of the rounds from `i` on. -/
def roundsBytes (nums : Nat → List Nat) (i rounds : Nat) : List UInt8 :=
  (List.range' i rounds).flatMap fun j => numsBytes (nums j)

theorem roundsBytes_succ (nums : Nat → List Nat) (i rounds : Nat) :
    roundsBytes nums i (rounds + 1) = numsBytes (nums i) ++ roundsBytes nums (i + 1) rounds := rfl

/-- The rounds of an encoder read what was in the memory before the first one, each of it behind
all that may be written by then. -/
structure Ahead (round : Round) (mem : Memory) (start width num : Nat) (first : Nat → Nat)
    (prev : Nat → Nat) (nums : Nat → List Nat) : Prop where
  zero : prev 0 = 0
  reads : ∀ i, i < num → ∀ mem', (∀ a, first i ≤ a → mem' a = mem a) →
    round mem' i (prev i) = (prev (i + 1), nums i)
  counted : ∀ i, i < num → (nums i).length = width
  small : ∀ i, i < num → ∀ n ∈ nums i, n < 2 ^ 62
  behind : ∀ i, i < num → start + 8 + 8 * width * i ≤ first i

variable {round : Round} {start width num : Nat} {first prev : Nat → Nat} {nums : Nat → List Nat}

theorem packetRounds_spec (ahead : Ahead round mem start width num first prev nums)
    {rounds i : Nat} (inside : i + rounds ≤ num) (place : c.pc ≤ start + 8 + 8 * width * i)
    (old : ∀ a, c.pc ≤ a → c.mem a = mem a) :
    packetRounds order round rounds i (prev i) c = (c.put (roundsBytes nums i rounds), 0) := by
  induction rounds generalizing i c with
  | zero => exact congrArg (·, (0 : Int)) c.put_nil.symm
  | succ rounds ih =>
    have here : i < num := by omega
    have read := ahead.reads i here c.mem fun a high =>
      old a (place.trans ((ahead.behind i here).trans high))
    have length := numsBytes_length (nums i)
    rw [ahead.counted i here] at length
    have place' : (c.put (numsBytes (nums i))).pc ≤ start + 8 + 8 * width * (i + 1) := by
      change c.pc + (numsBytes (nums i)).length ≤ _
      rw [Nat.mul_succ]
      omega
    have old' : ∀ a, (c.put (numsBytes (nums i))).pc ≤ a →
        (c.put (numsBytes (nums i))).mem a = mem a := by
      intro a high
      change c.pc + _ ≤ a at high
      exact (write_apart (.inr high)).trans (old a (by omega))
    rw [packetRounds, read]
    simp only []
    rw [convertAll_spec (ahead.small i here)]
    simp only [Int.lt_irrefl, if_false]
    rw [ih (by omega) place' old', roundsBytes_succ, Cursor.put_append]

/-- The state in front of round `i`. -/
def beforeRound (order : ByteOrder) (round : Round) (num : Int) (c : Cursor) (i : Nat) : Cursor :=
  (packetRounds order round i 0 0 (convertToMoonNum order (toU64 num) c).1).1

theorem toU64_nat {n : Nat} (small : n < 2 ^ 64) : toU64 n = n := by
  rw [toU64, u64_eq (by omega) (by omega)]
  rfl

section run
variable {len : Int}

theorem started_spec (few : num < 2 ^ 62) : convertToMoonNum order (toU64 num) c =
    (c.put (moonBytes num), 0) := by
  rw [toU64_nat (by omega), convertToMoonNum_spec few]

/-- The first rounds behind the number of the elements. -/
theorem startedRounds_spec (ahead : Ahead round mem start width num first prev nums) {i : Nat}
    (inside : i ≤ num) :
    packetRounds order round i 0 0 ((Cursor.mk mem start len).put (moonBytes num)) =
      ((Cursor.mk mem start len).put (moonBytes num ++ roundsBytes nums 0 i), 0) := by
  have bounds := moonBytes_bounds num
  have place : ((Cursor.mk mem start len).put (moonBytes num)).pc ≤ start + 8 + 8 * width * 0 := by
    change start + _ ≤ _
    omega
  have old : ∀ a, ((Cursor.mk mem start len).put (moonBytes num)).pc ≤ a →
      ((Cursor.mk mem start len).put (moonBytes num)).mem a = mem a :=
    fun a high => write_apart (.inr high)
  have inside' : 0 + i ≤ num := by omega
  have rounds : packetRounds order round i 0 (prev 0) _ = _ :=
    packetRounds_spec ahead inside' place old
  rw [ahead.zero] at rounds
  rw [rounds, Cursor.put_append]

theorem beforeRound_spec (ahead : Ahead round mem start width num first prev nums)
    (few : num < 2 ^ 62) {i : Nat} (inside : i ≤ num) :
    beforeRound order round num ⟨mem, start, len⟩ i =
      (Cursor.mk mem start len).put (moonBytes num ++ roundsBytes nums 0 i) := by
  rw [beforeRound, started_spec few, startedRounds_spec ahead inside]

theorem packetData_spec (ahead : Ahead round mem start width num first prev nums)
    (few : num < 2 ^ 62) :
    packetData order round num ⟨mem, start, len⟩ =
      ((Cursor.mk mem start len).put (moonBytes num ++ roundsBytes nums 0 num), 0) := by
  rw [packetData, started_spec few]
  simp only [Int.lt_irrefl, if_false, Int.toNat_natCast]
  rw [startedRounds_spec ahead (Nat.le_refl num)]

/-- What is read in a round was not written before. -/
theorem beforeRound_old (ahead : Ahead round mem start width num first prev nums)
    (few : num < 2 ^ 62) {i : Nat} (inside : i < num) {a : Nat} (high : first i ≤ a) :
    (beforeRound order round num ⟨mem, start, len⟩ i).mem a = mem a := by
  have length : ∀ k, k ≤ num → (roundsBytes nums 0 k).length ≤ 8 * width * k := by
    intro k few
    induction k with
    | zero => exact Nat.le_refl 0
    | succ k ih =>
      have one := numsBytes_length (nums k)
      rw [ahead.counted k few] at one
      have rest := ih (by omega)
      rw [roundsBytes, List.range'_concat, List.flatMap_append, List.length_append, Nat.mul_succ]
      simp only [List.flatMap_cons, List.flatMap_nil, List.append_nil, Nat.zero_add, Nat.one_mul]
      exact Nat.add_le_add rest one
  have bounds := moonBytes_bounds num
  have written := length i (Nat.le_of_lt inside)
  have room := ahead.behind i inside
  rw [beforeRound_spec ahead few (Nat.le_of_lt inside)]
  refine write_apart (.inr ?_)
  change start + (moonBytes num ++ roundsBytes nums 0 i).length ≤ a
  rw [List.length_append]
  omega

end run
end encode

section decode
variable {order : ByteOrder} {nums : Nat → List Nat} {num : Nat}

theorem getNums_spec {ns : List Nat} (small : ∀ n ∈ ns, n < 2 ^ 62) (rest : List UInt8) :
    getNums order ns.length (numsBytes ns ++ rest) = (0, ns, rest) := by
  induction ns with
  | nil => rfl
  | cons n ns ih =>
    rw [List.length_cons, getNums, numsBytes_cons, List.append_assoc,
      getFromMoonNum_moonBytes (small n List.mem_cons_self)]
    simp only [Int.lt_irrefl, if_false]
    rw [ih fun m member => small m (List.mem_cons_of_mem n member)]

/-- A decoder makes the words of the elements of the numbers of the rounds. -/
structure Decodes (elem : Nat → List Nat → Nat × List Nat) (fields num : Nat)
    (nums : Nat → List Nat) (prev : Nat → Nat) (words : Nat → List Nat) : Prop where
  counted : ∀ i, i < num → (nums i).length = fields
  small : ∀ i, i < num → ∀ n ∈ nums i, n < 2 ^ 62
  elem : ∀ i, i < num → elem (prev i) (nums i) = (prev (i + 1), words i)

variable {elem : Nat → List Nat → Nat × List Nat} {fields : Nat} {prev : Nat → Nat}
variable {words : Nat → List Nat}

theorem unpackElems_spec (decodes : Decodes elem fields num nums prev words) {rounds i : Nat}
    (inside : i + rounds ≤ num) (ids : Nat → Option (List Nat)) (rest : List UInt8) :
    unpackElems order fields elem rounds i (prev i) ids (roundsBytes nums i rounds ++ rest) =
      (0, fun j => if i ≤ j ∧ j < i + rounds then some (words j) else ids j, rest) := by
  induction rounds generalizing i ids with
  | zero =>
    have none : (fun j => if i ≤ j ∧ j < i + 0 then some (words j) else ids j) = ids := by
      funext j
      exact if_neg (by omega)
    rw [none]
    rfl
  | succ rounds ih =>
    have here : i < num := by omega
    have read : getNums order (nums i).length _ = _ := getNums_spec (decodes.small i here)
      (roundsBytes nums (i + 1) rounds ++ rest)
    rw [decodes.counted i here] at read
    rw [unpackElems, roundsBytes_succ, List.append_assoc, read]
    simp only [Int.lt_irrefl, if_false]
    rw [decodes.elem i here]
    simp only []
    rw [ih (by omega)]
    congr 2
    funext j
    rcases Nat.lt_trichotomy j i with below | rfl | above
    · rw [if_neg (by omega), if_neg (by omega), Function.update_of_ne (by omega)]
    · rw [if_neg (by omega), if_pos (by omega), Function.update_self]
    · by_cases high : j < i + 1 + rounds
      · rw [if_pos (by omega), if_pos (by omega)]
      · rw [if_neg (by omega), if_neg (by omega), Function.update_of_ne (by omega)]

/-- What a decoder does once it has the announced number. -/
theorem unpackData_announced {malloc : Nat → Bool} {bytes rest : List UInt8} {announced : Nat}
    (found : getFromMoonNum order bytes = (0, announced, rest)) :
    unpackData order malloc fields elem bytes =
      unpackArray order malloc fields elem (i32 announced) rest := by
  rw [unpackData, found]
  exact if_neg (Int.lt_irrefl 0)

theorem unpackData_refused {malloc : Nat → Bool} {bytes rest : List UInt8} {n : Nat}
    (found : getFromMoonNum order bytes = (-1, n, rest)) :
    unpackData order malloc fields elem bytes = ⟨-1, 0, 0, fun _ => none, rest⟩ := by
  rw [unpackData, found]
  exact if_pos (by decide)

/-- The list comes back, with the bytes behind it. -/
theorem unpackData_spec (decodes : Decodes elem fields num nums prev words) (zero : prev 0 = 0)
    (few : num < 2 ^ 26) {malloc : Nat → Bool} (memory : malloc (idsLen * num) = true)
    (rest : List UInt8) :
    unpackData order malloc fields elem (moonBytes num ++ roundsBytes nums 0 num ++ rest) =
      ⟨0, num, idsLen * num, fun i => if i < num then some (words i) else none, rest⟩ := by
  have narrow : i32 (num : Int) = num := i32_eq (by omega) (by omega)
  have size : i32 (u64 (idsLen * num)) = idsLen * num := by
    rw [idsLen, u64_eq (by omega) (by omega), i32_eq (by omega) (by omega)]
  have same : toU64 (idsLen * num : Nat) = idsLen * num := toU64_nat (by rw [idsLen]; omega)
  have memory' : malloc (toU64 (idsLen * (num : Int))) = true := by
    rw [Nat.cast_mul] at same
    rw [same, memory]
  have loop : unpackElems order fields elem num 0 (prev 0) _ _ = _ :=
    unpackElems_spec decodes (by omega) (fun _ => none) rest
  rw [zero] at loop
  have found : getFromMoonNum order (moonBytes num ++ _) = _ :=
    getFromMoonNum_moonBytes (by omega) (roundsBytes nums 0 num ++ rest)
  rw [List.append_assoc, unpackData_announced found, narrow, unpackArray, size, if_pos memory',
    Int.toNat_natCast, loop]
  simp only [Nat.zero_le, true_and, Nat.zero_add]

end decode

/-- The lists of a packet; those of an update carry the new ids too. -/
inductive Kind where
  | dels
  | writes
  | writesId
  | news
  | newsId

def Kind.change (changes : Changes) : Kind → PacketChange
  | .dels => changes.del
  | .writes | .writesId => changes.write
  | .news | .newsId => changes.new

def Kind.round (order : ByteOrder) (blocks : Nat → MemBlock) (change : PacketChange) : Kind → Round
  | .dels | .writes => delRound order blocks change
  | .writesId => writeIdRound order blocks change
  | .news => newRound order blocks change
  | .newsId => newIdRound order blocks change

def Kind.pack (order : ByteOrder) (blocks : Nat → MemBlock) (change : PacketChange) (mem : Memory) :
    Kind → Cursor × Int
  | .dels | .writes => packetDelData order blocks change mem
  | .writesId => packetWriteDataId order blocks change mem
  | .news => packetNewData order blocks change mem
  | .newsId => packetNewDataId order blocks change mem

def Kind.unpack (order : ByteOrder) (malloc : Nat → Bool) : Kind → List UInt8 → Unpacked
  | .dels | .writes => unpackDelData order malloc
  | .writesId => unpackWriteDataId order malloc
  | .news => unpackNewData order malloc
  | .newsId => unpackNewDataId order malloc

/-- The words that the receiver is to have for a block, and the block before the writes. -/
def Kind.words (block prevBlock : MemBlock) : Kind → List Nat
  | .dels | .writes => [block.id]
  | .writesId => [prevBlock.id, block.id]
  | .news => [block.typeId.toNat, block.typeNum.toNat]
  | .newsId => [block.typeId.toNat, block.typeNum.toNat, block.id]

structure Ascending (num : Nat) (block : Nat → MemBlock) : Prop where
  less : ∀ i, i + 1 < num → (block i).id < (block (i + 1)).id
  small : ∀ i, i < num → (block i).id < 2 ^ 62

/-- The types and counts of the blocks are ints that are not negative. -/
def Typed (num : Nat) (block : Nat → MemBlock) : Prop :=
  ∀ i, i < num → 0 ≤ (block i).typeId ∧ (block i).typeId < 2 ^ 31 ∧
    0 ≤ (block i).typeNum ∧ (block i).typeNum < 2 ^ 31

def Kind.Valid (num : Nat) (block prevBlock : Nat → MemBlock) : Kind → Prop
  | .dels | .writes => Ascending num block
  | .writesId => Ascending num prevBlock ∧
      ∀ i, i < num → (prevBlock i).id < (block i).id ∧ (block i).id < 2 ^ 62
  | .news => Typed num block
  | .newsId => Ascending num block ∧ Typed num block

/-- An encoder writes only the bytes from which the decoder makes the list again, and no pair
before it has read it. -/
structure RoundTrip (change : PacketChange) (mem : Memory) (run : Cursor × Int)
    (before : Nat → Cursor) (unpack : List UInt8 → Unpacked) (words : Nat → List Nat) : Prop where
  packed : run.2 = 0
  written : (run.1.pc : Int) = change.dataPtr + run.1.len
  frame : ∀ a, a < change.dataPtr ∨ run.1.pc ≤ a → run.1.mem a = mem a
  unread : ∀ i : Nat, i < change.num → ∀ a, change.pairs + pairLen * i ≤ a →
    (before i).mem a = mem a
  unpacked : ∀ rest, unpack (read run.1.mem change.dataPtr run.1.len.toNat ++ rest) =
    ⟨0, change.num, idsLen * change.num,
      fun i => if (i : Int) < change.num then some (words i) else none, rest⟩

section kinds
variable {order : ByteOrder} {blocks : Nat → MemBlock} {change : PacketChange} {mem : Memory}
variable {kind : Kind} {num : Nat}

/-- The block of a pair. -/
def pairBlock (order : ByteOrder) (blocks : Nat → MemBlock) (mem : Memory) (pairs i : Nat) :
    MemBlock := blocks (pairAddr order mem pairs i)

/-- What `prev_64` is in front of each round. -/
def previous (block : Nat → MemBlock) : Nat → Nat
  | 0 => 0
  | i + 1 => (block i).id

def Kind.prev (block prevBlock : Nat → MemBlock) : Kind → Nat → Nat
  | .dels | .writes | .newsId => previous block
  | .writesId => previous prevBlock
  | .news => fun _ => 0

def Kind.nums (block prevBlock : Nat → MemBlock) (i : Nat) : Kind → List Nat
  | .dels | .writes => [(block i).id - previous block i]
  | .writesId => [(prevBlock i).id - previous prevBlock i, (block i).id - (prevBlock i).id]
  | .news => [(block i).typeId.toNat, (block i).typeNum.toNat]
  | .newsId => [(block i).typeId.toNat, (block i).typeNum.toNat, (block i).id - previous block i]

def Kind.elem : Kind → Nat → List Nat → Nat × List Nat
  | .dels | .writes => delElem
  | .writesId => writeIdElem
  | .news => newElem
  | .newsId => newIdElem

def Kind.width : Kind → Nat
  | .dels | .writes => 1
  | .writesId | .news => 2
  | .newsId => 3

theorem Ascending.previous_le {block : Nat → MemBlock} (ascending : Ascending num block) {i : Nat}
    (inside : i < num) : previous block i ≤ (block i).id := by
  cases i with
  | zero => exact Nat.zero_le _
  | succ i => exact Nat.le_of_lt (ascending.less i inside)

theorem sub64_eq {a b : Nat} (le : b ≤ a) (small : a < 2 ^ 62) : sub64 a b = a - b := by
  rw [sub64, u64_eq (by omega) (by omega)]
  omega

theorem add64_eq {a b : Nat} (small : a + b < 2 ^ 62) : add64 a b = a + b :=
  Nat.mod_eq_of_lt (by omega)

theorem toU64_eq {x : Int} (low : 0 ≤ x) (high : x < 2 ^ 31) : toU64 x = x.toNat := by
  rw [toU64, u64_eq low (by omega)]

theorem pairAddr_old {mem' : Memory} {pairs first i : Nat} (low : first ≤ pairs + pairLen * i)
    (old : ∀ a, first ≤ a → mem' a = mem a) :
    pairAddr order mem' pairs i = pairAddr order mem pairs i := by
  have same : read mem' (pairs + pairLen * i + addrOffset) 8 =
      read mem (pairs + pairLen * i + addrOffset) 8 := by
    apply read_congr
    intro a above _
    exact old a (by omega)
  rw [pairAddr, same, pairAddr]

theorem Kind.nums_length (block prevBlock : Nat → MemBlock) (i : Nat) :
    (kind.nums block prevBlock i).length = kind.width := by
  cases kind <;> rfl

theorem Kind.nums_small {block prevBlock : Nat → MemBlock}
    (valid : kind.Valid num block prevBlock) {i : Nat} (inside : i < num) :
    ∀ n ∈ kind.nums block prevBlock i, n < 2 ^ 62 := by
  intro n member
  cases kind with
  | dels | writes =>
    have small := valid.small i inside
    simp only [Kind.nums, List.mem_singleton] at member
    omega
  | writesId =>
    have small := valid.1.small i inside
    have small' := valid.2 i inside
    simp only [Kind.nums, List.mem_cons, List.not_mem_nil, or_false] at member
    omega
  | news =>
    have typed := valid i inside
    simp only [Kind.nums, List.mem_cons, List.not_mem_nil, or_false] at member
    omega
  | newsId =>
    have small := valid.1.small i inside
    have typed := valid.2 i inside
    simp only [Kind.nums, List.mem_cons, List.not_mem_nil, or_false] at member
    omega

theorem Kind.reads {first i : Nat} {mem' : Memory}
    (valid : kind.Valid num (pairBlock order blocks mem change.pairs)
      (pairBlock order blocks mem change.prevPairs)) (inside : i < num)
    (low : first ≤ change.pairs + pairLen * i)
    (low' : kind = .writesId → change.pairs ≤ change.prevPairs)
    (old : ∀ a, first ≤ a → mem' a = mem a) :
    kind.round order blocks change mem' i (kind.prev (pairBlock order blocks mem change.pairs)
        (pairBlock order blocks mem change.prevPairs) i) =
      (kind.prev (pairBlock order blocks mem change.pairs)
        (pairBlock order blocks mem change.prevPairs) (i + 1),
      kind.nums (pairBlock order blocks mem change.pairs)
        (pairBlock order blocks mem change.prevPairs) i) := by
  have here : pairAddr order mem' change.pairs i = _ := pairAddr_old low old
  cases kind with
  | dels | writes =>
    have difference := sub64_eq (valid.previous_le inside) (valid.small i inside)
    simp only [Kind.round, delRound, here]
    exact congrArg (fun n => (_, [n])) difference
  | writesId =>
    have here' : pairAddr order mem' change.prevPairs i = _ :=
      pairAddr_old (low.trans (Nat.add_le_add_right (low' rfl) _)) old
    have difference := sub64_eq (valid.1.previous_le inside) (valid.1.small i inside)
    have difference' := sub64_eq (Nat.le_of_lt (valid.2 i inside).1) (valid.2 i inside).2
    simp only [Kind.round, writeIdRound, here, here']
    exact congrArg₂ (fun n n' => (_, [n, n'])) difference difference'
  | news =>
    obtain ⟨low, high, low', high'⟩ := valid i inside
    simp only [Kind.round, newRound, here]
    exact congrArg₂ (fun n n' => (0, [n, n'])) (toU64_eq low high) (toU64_eq low' high')
  | newsId =>
    obtain ⟨low, high, low', high'⟩ := valid.2 i inside
    have difference := sub64_eq (valid.1.previous_le inside) (valid.1.small i inside)
    simp only [Kind.round, newIdRound, here]
    refine congrArg (Prod.mk _) ?_
    refine congrArg₂ List.cons (toU64_eq low high) ?_
    exact congrArg₂ (fun n n' => [n, n']) (toU64_eq low' high') difference

theorem Kind.elem_nums {block prevBlock : Nat → MemBlock} (valid : kind.Valid num block prevBlock)
    {i : Nat} (inside : i < num) : kind.elem (kind.prev block prevBlock i)
      (kind.nums block prevBlock i) =
        (kind.prev block prevBlock (i + 1), kind.words (block i) (prevBlock i)) := by
  cases kind with
  | dels | writes =>
    have le := valid.previous_le inside
    have small := valid.small i inside
    have sum : add64 (previous block i) ((block i).id - previous block i) = (block i).id := by
      rw [add64_eq (by omega)]
      omega
    exact congrArg (fun n => (n, [n])) sum
  | writesId =>
    have le := valid.1.previous_le inside
    have small := valid.1.small i inside
    have small' := valid.2 i inside
    have sum : add64 (previous prevBlock i) ((prevBlock i).id - previous prevBlock i) =
        (prevBlock i).id := by
      rw [add64_eq (by omega)]
      omega
    have sum' : add64 ((block i).id - (prevBlock i).id) (prevBlock i).id = (block i).id := by
      rw [add64_eq (by omega)]
      omega
    simp only [Kind.elem, Kind.nums, Kind.prev, writeIdElem, List.getD_cons_zero,
      List.getD_cons_succ, sum, sum']
    rfl
  | news => rfl
  | newsId =>
    have le := valid.1.previous_le inside
    have small := valid.1.small i inside
    have sum : add64 (previous block i) ((block i).id - previous block i) = (block i).id := by
      rw [add64_eq (by omega)]
      omega
    exact congrArg (fun n => (n, [(block i).typeId.toNat, (block i).typeNum.toNat, n])) sum

theorem Kind.unpack_eq (malloc : Nat → Bool) (bytes : List UInt8) :
    kind.unpack order malloc bytes = unpackData order malloc kind.width kind.elem bytes := by
  cases kind <;> rfl

theorem Kind.pack_eq (empty : change.len = 0) : kind.pack order blocks change mem =
    packetData order (kind.round order blocks change) change.num ⟨mem, change.dataPtr, 0⟩ := by
  cases kind with
  | dels | writes | news => exact congrArg (fun len => packetData _ _ _ ⟨_, _, len⟩) empty
  | writesId | newsId => rfl

/-- The number of the elements of a list. -/
def Kind.count (dels writes news : Nat) : Kind → Nat
  | .dels => dels
  | .writes | .writesId => writes
  | .news | .newsId => news

/-- The pairs of a list lie so far behind its start that the numbers do not come up with them. -/
structure Kind.Room (change : PacketChange) (num : Nat) (kind : Kind) : Prop where
  counted : change.num = num
  empty : change.len = 0
  behind : ∀ i, i < num → change.dataPtr + 8 + 8 * kind.width * i ≤ change.pairs + pairLen * i
  prevBehind : kind = .writesId → change.pairs ≤ change.prevPairs

theorem layOut_room (buf dels writes news : Nat) :
    kind.Room (kind.change (layOut buf dels writes news)) (kind.count dels writes news) := by
  have sizes : ∀ n, pairsSize n = 16 * n ∧ delsMaxSize n = 8 * n ∧ writesMaxSize n = 16 * n ∧
      newsMaxSize n = 24 * n := by
    intro n
    unfold pairsSize delsMaxSize writesMaxSize newsMaxSize pairLen
    omega
  have dels' := sizes dels
  have writes' := sizes writes
  have news' := sizes news
  cases kind with
  | dels | writes | news | newsId =>
    refine ⟨rfl, rfl, ?_, fun no => by contradiction⟩
    intro i inside
    simp only [Kind.change, Kind.count, Kind.width, layOut, changElemHead, pairLen] at *
    omega
  | writesId =>
    refine ⟨rfl, rfl, ?_, fun _ => ?_⟩
    · intro i inside
      simp only [Kind.change, Kind.count, Kind.width, layOut, changElemHead, pairLen] at *
      omega
    · simp only [Kind.change, layOut]
      omega

theorem Kind.prev_zero (block prevBlock : Nat → MemBlock) : kind.prev block prevBlock 0 = 0 := by
  cases kind <;> rfl

theorem Kind.ahead (room : kind.Room change num)
    (valid : kind.Valid num (pairBlock order blocks mem change.pairs)
      (pairBlock order blocks mem change.prevPairs)) :
    Ahead (kind.round order blocks change) mem change.dataPtr kind.width num
      (fun i => change.pairs + pairLen * i)
      (kind.prev (pairBlock order blocks mem change.pairs)
        (pairBlock order blocks mem change.prevPairs))
      fun i => kind.nums (pairBlock order blocks mem change.pairs)
        (pairBlock order blocks mem change.prevPairs) i where
  zero := Kind.prev_zero _ _
  reads _ inside _ old := Kind.reads valid inside (Nat.le_refl _) room.prevBehind old
  counted i _ := Kind.nums_length _ _ i
  small _ inside := Kind.nums_small valid inside
  behind := room.behind

theorem Kind.decodes {block prevBlock : Nat → MemBlock}
    (valid : kind.Valid num block prevBlock) :
    Decodes kind.elem kind.width num (fun i => kind.nums block prevBlock i)
      (kind.prev block prevBlock) fun i => kind.words (block i) (prevBlock i) where
  counted i _ := Kind.nums_length _ _ i
  small _ inside := Kind.nums_small valid inside
  elem _ inside := Kind.elem_nums valid inside

theorem round_trip (order' : ByteOrder) {malloc : Nat → Bool} (room : kind.Room change num)
    (few : num < 2 ^ 26) (memory : malloc (idsLen * num) = true)
    (valid : kind.Valid num (pairBlock order blocks mem change.pairs)
      (pairBlock order blocks mem change.prevPairs)) :
    RoundTrip change mem (kind.pack order blocks change mem)
      (beforeRound order (kind.round order blocks change) change.num ⟨mem, change.dataPtr, 0⟩)
      (kind.unpack order' malloc)
      (fun i => kind.words (pairBlock order blocks mem change.pairs i)
        (pairBlock order blocks mem change.prevPairs i)) := by
  have ahead := Kind.ahead room valid
  have decodes := Kind.decodes valid
  have zero : kind.prev (pairBlock order blocks mem change.pairs)
      (pairBlock order blocks mem change.prevPairs) 0 = 0 := Kind.prev_zero _ _
  have run : packetData order _ _ ⟨_, _, 0⟩ = _ := packetData_spec ahead (by omega)
  rw [Kind.pack_eq room.empty, room.counted, run]
  have length := moonBytes_bounds num
  constructor
  · rfl
  · simp only [Cursor.put, Nat.cast_add, Int.zero_add]
  · rintro a (low | high)
    · exact write_apart (.inl low)
    · exact write_apart (.inr high)
  · intro i inside a high
    rw [room.counted] at inside
    exact beforeRound_old ahead (by omega) (by omega) high
  · intro rest
    simp only [Cursor.put, Int.zero_add, Int.toNat_natCast, read_write]
    rw [Kind.unpack_eq, unpackData_spec decodes zero few memory, room.counted]
    simp only [Nat.cast_lt]

/-- Each list of fewer than 2^26 blocks comes back from the bytes that its encoder puts into the
region of its pairs. -/
theorem change_list_round_trip (order order' : ByteOrder) (blocks : Nat → MemBlock)
    (malloc : Nat → Bool) (mem : Memory) (buf dels writes news : Nat) (kind : Kind)
    (laid : change = kind.change (layOut buf dels writes news))
    (counted : num = kind.count dels writes news) (few : num < 2 ^ 26)
    (memory : malloc (idsLen * num) = true)
    (valid : kind.Valid num (pairBlock order blocks mem change.pairs)
      (pairBlock order blocks mem change.prevPairs)) :
    RoundTrip change mem (kind.pack order blocks change mem)
      (beforeRound order (kind.round order blocks change) change.num ⟨mem, change.dataPtr, 0⟩)
      (kind.unpack order' malloc)
      (fun i => kind.words (pairBlock order blocks mem change.pairs i)
        (pairBlock order blocks mem change.prevPairs i)) := by
  subst laid counted
  exact round_trip order' (layOut_room buf dels writes news) few memory valid

end kinds

section example_

/-- Two pairs behind the head of a list at 0, with the addresses 0 and 1. -/
def twoPairs : Memory := fun a => if a = 32 then 1 else 0

def twoBlocks (a : Nat) : MemBlock :=
  if a = 0 then ⟨5, 0, 64, false, 1, 1⟩ else ⟨70000, 0, 128, false, 2, 3⟩

theorem change_list_round_trip_dels :
    RoundTrip (layOut 0 2 1 1).del twoPairs
      (packetDelData .little twoBlocks (layOut 0 2 1 1).del twoPairs)
      (beforeRound .little (delRound .little twoBlocks (layOut 0 2 1 1).del) 2 ⟨twoPairs, 0, 0⟩)
      (unpackDelData .big fun _ => true)
      (fun i => [(pairBlock .little twoBlocks twoPairs 8 i).id]) := by
  have trip := change_list_round_trip .little .big twoBlocks (fun _ => true) twoPairs 0 2 1 1
    .dels rfl rfl (by decide) rfl (by
      constructor
      · intro i inside
        obtain rfl : i = 0 := by
          change i + 1 < 2 at inside
          omega
        decide
      · intro i inside
        change i < 2 at inside
        have two : i = 0 ∨ i = 1 := by omega
        rcases two with rfl | rfl <;> decide)
  exact trip

end example_
end MoonInWater.Sync.ChangeList
