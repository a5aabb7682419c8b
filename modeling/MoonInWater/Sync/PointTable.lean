import MoonInWater.Lib.CInt
import MoonInWater.Lib.Stride
import MoonInWater.Sync.Pairs
import MoonInWater.Avl.PairTree

/-! The table of pointers of a block: points_to_id_offset turns its pointers into ids and offsets,
and id_offset_to_points turns these back, each of them in place. -/
namespace MoonInWater.Sync.PointTable
open CInt Endian Bytes Pairs Avl

/-- mem_block_s as to where its data lie. -/
structure MemBlock where
  id : Nat
  tmpId : Nat
  virtualAddr : Nat
  isDel : Int
  typeId : Int
  typeNum : Int
  dataLen : Int
deriving DecidableEq

/-- version_info_s; block_num is the length of both arrays. -/
structure VersionInfo (B : Type) where
  orderAddr : List (Pairs.AddrPair B)
  orderId : List (Pairs.AddrPair B)

/-- packet_id_offset_s -/
structure IdOffset where
  id : Nat
  offset : Nat
deriving DecidableEq

/-- get_target_offset from the source to the destination of a copy: of an offset, a type and a
number of elements. -/
abbrev GetTargetOffset := Int → Int → Int → Int

variable {P B : Type}

/-- get_virtual_address_info, whose `offset` is an int. -/
def getVirtualAddressInfo (b : MemBlock) (addr : Nat) : Option Int :=
  let offset := i32 ((addr : Int) - b.virtualAddr)
  if offset < 0 ∨ b.dataLen ≤ offset then none else some offset

/-- The entry of a pointer into a block, with the return value. -/
def blockEntry (target : GetTargetOffset) (b : MemBlock) (id : Nat) (offset : Int) :
    List IdOffset × Int :=
  let tmp := target offset b.typeId b.typeNum
  if tmp < 0 then ([], -1) else ([⟨id, (u32 tmp).toNat⟩], 0)

section
variable (fuel : Nat) (target : GetTargetOffset) (block : B → MemBlock)

/-- What points_to_id_offset writes for a pointer that is in no block of the tree. The pair found
is read before it is compared with NULL. -/
def versionEntry (version : VersionInfo B) (addr : Nat) : Option (List IdOffset × Int) :=
  (searchAddrId fuel version.orderAddr addr version.orderAddr.length).bind fun found =>
    found.map fun pair =>
      match getVirtualAddressInfo (block pair.addr) addr with
      | some offset => blockEntry target (block pair.addr) (block pair.addr).id offset
      | none => ([⟨0, 0⟩], 0)

/-- What points_to_id_offset writes for a pointer, entry after entry to one place, with the return
value; none when it reads through NULL. The entry of a deleted block is written over. Without a
private tree the tree is empty. -/
def pointEntry (tree : PairTree P B) (version : VersionInfo B) (addr : Nat) :
    Option (List IdOffset × Int) :=
  if addr = 0 then some ([⟨0, 0⟩], 0)
  else
    (avlSearch fuel addr tree).bind fun found =>
      match found with
      | none => versionEntry fuel target block version addr
      | some p =>
        (tree.pair p).addr.bind fun b =>
          match getVirtualAddressInfo (block b) addr with
          | none => versionEntry fuel target block version addr
          | some offset =>
            let entry := blockEntry target (block b) (block b).tmpId offset
            some (if 0 < (block b).isDel then (⟨0, 0⟩ :: entry.1, entry.2) else entry)

/-- The pointer that id_offset_to_points makes of an entry; none in it when it returns -1. -/
def entryPoint (version : VersionInfo B) (entry : IdOffset) : Option (Option Nat) :=
  if entry.id = 0 ∧ entry.offset = 0 then some (some 0)
  else
    (searchAddrId fuel version.orderId entry.id version.orderId.length).map fun found =>
      found.bind fun pair =>
        let b := block pair.addr
        let tmp := target (i32 entry.offset) b.typeId b.typeNum
        if tmp < 0 then none else some (u64 (b.virtualAddr + tmp)).toNat

section memory
variable (order : ByteOrder)

/-- id_offset_write to the place `p`. -/
def idOffsetWrite (p : Nat) (mem : Memory) (entry : IdOffset) : Memory :=
  write (write mem p (store order 8 (convert64 order entry.id))) (p + 8)
    (store order 4 (convert32 order entry.offset))

/-- A turn of points_to_id_offset. -/
def pointTurn (tree : PairTree P B) (version : VersionInfo B) (idOffset points j : Nat)
    (mem : Memory) : Option (Memory × Int) :=
  (pointEntry fuel target block tree version (load order (record mem points 8 j))).map fun entry =>
    (entry.1.foldl (idOffsetWrite order (idOffset + 12 * j)) mem, entry.2)

def pointsToIdOffset (tree : PairTree P B) (version : VersionInfo B) (idOffset points num : Nat)
    (mem : Memory) : Option (Memory × Int) :=
  turns (pointTurn fuel target block order tree version idOffset points) num mem

/-- The entry at `p`, in the order of the host after the conversions. -/
def entryAt (p : Nat) (mem : Memory) : IdOffset :=
  ⟨convert64 order (load order (read mem p 8)), convert32 order (load order (read mem (p + 8) 4))⟩

/-- A turn of id_offset_to_points, which converts the entry in its place first. -/
def offsetTurn (version : VersionInfo B) (points idOffset i : Nat) (mem : Memory) :
    Option (Memory × Int) :=
  let p := idOffset + 12 * i
  let entry := entryAt order p mem
  let mem := write (write mem p (store order 8 entry.id)) (p + 8) (store order 4 entry.offset)
  (entryPoint fuel target block version entry).map fun point =>
    match point with
    | none => (mem, -1)
    | some addr => (write mem (points + 8 * i) (store order 8 addr), 0)

def idOffsetToPoints (version : VersionInfo B) (points idOffset num : Nat) (mem : Memory) :
    Option (Memory × Int) :=
  turns (offsetTurn fuel target block order version points idOffset) num mem

/-- The bytes of an entry on the wire's side. -/
def entryBytes (entry : IdOffset) : List UInt8 :=
  store order 8 (convert64 order entry.id) ++ store order 4 (convert32 order entry.offset)

/-- What a turn of points_to_id_offset makes of the bytes of a pointer. -/
def pointRecord (tree : PairTree P B) (version : VersionInfo B) (bytes : List UInt8) :
    Option (List UInt8 × Int) :=
  (pointEntry fuel target block tree version (load order bytes)).map fun entry =>
    (((entry.1.getLast?).map (entryBytes order)).getD [], entry.2)

/-- What a turn of id_offset_to_points makes of the bytes of an entry. -/
def offsetRecord (version : VersionInfo B) (bytes : List UInt8) : Option (List UInt8 × Int) :=
  (entryPoint fuel target block version ⟨convert64 order (load order (bytes.take 8)),
    convert32 order (load order (bytes.drop 8))⟩).map fun point =>
      ((point.map (store order 8)).getD [], if point.isNone then -1 else 0)

end memory
end

section
variable {fuel : Nat} {target : GetTargetOffset} {block : B → MemBlock} {order : ByteOrder}
variable {tree : PairTree P B} {version : VersionInfo B}

theorem idOffsetWrite_eq (p : Nat) (mem : Memory) (entry : IdOffset) :
    idOffsetWrite order p mem entry = write mem p (entryBytes order entry) := by
  have size : (store order 8 (convert64 order entry.id)).length = 8 := store_length order 8 _
  rw [idOffsetWrite, entryBytes, write_append, size]

@[simp] theorem entryBytes_length (entry : IdOffset) : (entryBytes order entry).length = 12 := by
  simp [entryBytes]

/-- Of the entries written to one place the last one stays, and nothing else changes. -/
theorem idOffsetWrite_all (order : ByteOrder) (p : Nat) (mem : Memory) (entries : List IdOffset) :
    (∀ a, (a < p ∨ p + 12 ≤ a) → entries.foldl (idOffsetWrite order p) mem a = mem a) ∧
      ∀ entry, entries.getLast? = some entry →
        read (entries.foldl (idOffsetWrite order p) mem) p 12 = entryBytes order entry := by
  induction entries using List.reverseRecOn with
  | nil => exact ⟨fun _ _ => rfl, fun _ last => nomatch last⟩
  | append_singleton entries entry ih =>
    obtain ⟨frame, _⟩ := ih
    have size : (entryBytes order entry).length = 12 := entryBytes_length entry
    rw [List.foldl_append, List.foldl_cons, List.foldl_nil, idOffsetWrite_eq]
    constructor
    · intro a outside
      rw [write_apart (by rw [size]; exact outside)]
      exact frame a outside
    · intro last found
      rw [List.getLast?_concat] at found
      cases found
      exact read_written size

theorem blockEntry_written {b : MemBlock} {id : Nat} {offset : Int}
    (ok : 0 ≤ (blockEntry target b id offset).2) : (blockEntry target b id offset).1 ≠ [] := by
  by_cases failed : target offset b.typeId b.typeNum < 0
  · simp [blockEntry, failed] at ok
  · simp [blockEntry, failed]

theorem versionEntry_written {addr : Nat} {entry : List IdOffset × Int}
    (found : versionEntry fuel target block version addr = some entry) (ok : 0 ≤ entry.2) :
    entry.1 ≠ [] := by
  obtain ⟨pair, _, made⟩ := Option.bind_eq_some_iff.mp found
  obtain ⟨pair, _, made⟩ := Option.map_eq_some_iff.mp made
  subst made
  split at ok
  · exact blockEntry_written ok
  · simp

/-- A turn that does not fail writes an entry. -/
theorem pointEntry_written {addr : Nat} {entry : List IdOffset × Int}
    (found : pointEntry fuel target block tree version addr = some entry) (ok : 0 ≤ entry.2) :
    entry.1 ≠ [] := by
  unfold pointEntry at found
  split at found
  · cases found
    simp
  · obtain ⟨pair, _, made⟩ := Option.bind_eq_some_iff.mp found
    split at made
    · exact versionEntry_written made ok
    · obtain ⟨b, _, made⟩ := Option.bind_eq_some_iff.mp made
      split at made
      · exact versionEntry_written made ok
      · have made := Option.some.inj made
        split at made
        · subst made
          simp
        · subst made
          exact blockEntry_written ok

theorem pointTurn_converts (idOffset points : Nat) :
    Converts (pointRecord fuel target block order tree version) points 8 idOffset 12
      (pointTurn fuel target block order tree version idOffset points) := by
  constructor
  · intro j mem failed
    exact Option.map_eq_none_iff.mpr (Option.map_eq_none_iff.mp failed)
  · intro j mem out ret made
    obtain ⟨entry, found, made⟩ := Option.map_eq_some_iff.mp made
    cases made
    refine ⟨_, by rw [pointTurn, found]; rfl, fun ok => ?_⟩
    obtain ⟨frame, last⟩ := idOffsetWrite_all order (idOffset + 12 * j) mem entry.1
    constructor
    · have written := pointEntry_written found ok
      have final := List.getLast?_eq_some_getLast written
      rw [record, last _ final, final]
      rfl
    · intro a _ outside
      apply frame a
      omega

/-- The bytes of an entry are those of its id and those of its offset. -/
theorem entryAt_eq (mem : Memory) (idOffset j : Nat) :
    entryAt order (idOffset + 12 * j) mem =
      ⟨convert64 order (load order ((record mem idOffset 12 j).take 8)),
        convert32 order (load order ((record mem idOffset 12 j).drop 8))⟩ := by
  have size : (read mem (idOffset + 12 * j) 8).length = 8 := read_length
  have split : record mem idOffset 12 j =
      read mem (idOffset + 12 * j) 8 ++ read mem (idOffset + 12 * j + 8) 4 := read_append 8 4
  rw [split, List.take_left' size, List.drop_left' size, entryAt]

theorem offsetTurn_converts (points idOffset : Nat) :
    Converts (offsetRecord fuel target block order version) idOffset 12 points 8
      (offsetTurn fuel target block order version points idOffset) := by
  constructor
  · intro i mem failed
    rw [offsetRecord, ← entryAt_eq] at failed
    exact Option.map_eq_none_iff.mpr (Option.map_eq_none_iff.mp failed)
  · intro i mem out ret made
    rw [offsetRecord, ← entryAt_eq] at made
    obtain ⟨point, found, made⟩ := Option.map_eq_some_iff.mp made
    have first : ∀ entry : IdOffset, ∀ a, a < idOffset + 12 * i ∨ idOffset + 12 * (i + 1) ≤ a →
        write (write mem (idOffset + 12 * i) (store order 8 entry.id)) (idOffset + 12 * i + 8)
          (store order 4 entry.offset) a = mem a := by
      intro entry a outside
      rw [write_apart (by rw [store_length]; omega), write_apart (by rw [store_length]; omega)]
    cases point with
    | none =>
      cases made
      exact ⟨_, by rw [offsetTurn, found]; rfl, fun ok => absurd ok (by decide)⟩
    | some addr =>
      cases made
      have size : (store order 8 addr).length = 8 := store_length order 8 addr
      refine ⟨_, by rw [offsetTurn, found]; rfl, fun _ => ?_⟩
      constructor
      · exact read_written size
      · intro a source outside
        rw [write_apart (by rw [size]; omega)]
        exact first _ a source

/-- The entry of a pointer ends before the pointers that are still to be read. -/
theorem ahead_to (base n : Nat) : Ahead (base + 4 * n) 8 base 12 n := by
  intro i j before inside
  left
  omega

theorem ahead_from (base n : Nat) : Ahead base 12 base 8 n := by
  intro i j before inside
  left
  omega

theorem ahead_apart {src r dst w n : Nat} (apart : src + r * n ≤ dst ∨ dst + w * n ≤ src) :
    Ahead src r dst w n := by
  intro i j before inside
  have source : r * (j + 1) ≤ r * n := Nat.mul_le_mul_left r inside
  have target : w * (i + 1) ≤ w * n := Nat.mul_le_mul_left w (by omega)
  have start : r * j ≤ r * (j + 1) := Nat.mul_le_mul_left r (Nat.le_succ j)
  have start' : w * i ≤ w * (i + 1) := Nat.mul_le_mul_left w (Nat.le_succ i)
  rcases apart with low | high
  · right
    omega
  · left
    omega

end

/-- In place no record is written over before it is read, in either direction, and the call comes
to the same end as one that writes into memory of its own. -/
theorem converted_in_place (fuel : Nat) (target : GetTargetOffset) (block : B → MemBlock)
    (order : ByteOrder) (tree : PairTree P B) (version : VersionInfo B) (base n : Nat)
    (mem : Memory) :
    (∀ j < n, ∀ mem' ret, pointsToIdOffset fuel target block order tree version base
        (base + 4 * n) j mem = some (mem', ret) → 0 ≤ ret →
      record mem' (base + 4 * n) 8 j = record mem (base + 4 * n) 8 j) ∧
    (∀ i < n, ∀ mem' ret, idOffsetToPoints fuel target block order version base base i mem =
        some (mem', ret) → 0 ≤ ret → record mem' base 12 i = record mem base 12 i) ∧
    ∀ out, (out + 12 * n ≤ base ∨ base + 12 * n ≤ out) → ∀ j ≤ n,
      ((pointsToIdOffset fuel target block order tree version base (base + 4 * n) j mem).map
          Prod.snd =
        (pointsToIdOffset fuel target block order tree version out (base + 4 * n) j mem).map
          Prod.snd ∧
        ∀ mem₁ mem₂ ret,
          pointsToIdOffset fuel target block order tree version base (base + 4 * n) j mem =
            some (mem₁, ret) →
          pointsToIdOffset fuel target block order tree version out (base + 4 * n) j mem =
            some (mem₂, ret) → 0 ≤ ret →
          read mem₁ base (12 * j) = read mem₂ out (12 * j)) ∧
      ((idOffsetToPoints fuel target block order version base base j mem).map Prod.snd =
        (idOffsetToPoints fuel target block order version out base j mem).map Prod.snd ∧
        ∀ mem₁ mem₂ ret,
          idOffsetToPoints fuel target block order version base base j mem = some (mem₁, ret) →
          idOffsetToPoints fuel target block order version out base j mem = some (mem₂, ret) →
          0 ≤ ret → read mem₁ base (8 * j) = read mem₂ out (8 * j)) := by
  have written : ∀ idOffset points, Converts (pointRecord fuel target block order tree version)
      points 8 idOffset 12 (pointTurn fuel target block order tree version idOffset points) :=
    pointTurn_converts
  have restored : ∀ points idOffset, Converts (offsetRecord fuel target block order version)
      idOffset 12 points 8 (offsetTurn fuel target block order version points idOffset) :=
    offsetTurn_converts
  refine ⟨?_, ?_, ?_⟩
  · intro j inside mem' ret ran ok
    obtain ⟨reads, _⟩ := (written base (base + 4 * n)).turns_reads (ahead_to base n)
      (Nat.le_of_lt inside) ran ok
    exact reads j (Nat.le_refl j) inside
  · intro i inside mem' ret ran ok
    obtain ⟨reads, _⟩ := (restored base base).turns_reads (ahead_from base n)
      (Nat.le_of_lt inside) ran ok
    exact reads i (Nat.le_refl i) inside
  · intro out apart j inside
    constructor
    · have separate : Ahead (base + 4 * n) 8 out 12 n := ahead_apart (by omega)
      exact (written base (base + 4 * n)).same_table (written out (base + 4 * n))
        (ahead_to base n) separate inside
    · have separate : Ahead base 12 out 8 n := ahead_apart (by omega)
      exact (restored base base).same_table (restored out base) (ahead_from base n) separate
        inside

end MoonInWater.Sync.PointTable
