import MoonInWater.Sync.PointTranslation

/-! The way of an array of pointers through points_to_id_offset and back through
id_offset_to_points. -/
namespace MoonInWater.Sync.PointTable
open CInt Pairs Avl Floor Fuel Endian Bytes

variable {P B : Type}

theorem load_store (order : ByteOrder) {k x : Nat} (small : x < 256 ^ k) :
    load order (store order k x) = x := by
  cases order with
  | little => exact littleNum_little small
  | big =>
    rw [load, store, List.reverse_reverse]
    exact littleNum_little small

theorem load_lt (order : ByteOrder) (bytes : List UInt8) :
    load order bytes < 256 ^ bytes.length := by
  cases order with
  | little => exact littleNum_lt bytes
  | big =>
    rw [← List.length_reverse]
    exact littleNum_lt bytes.reverse

/-- The pointer `j` of a table. -/
def pointAt (order : ByteOrder) (mem : Memory) (points j : Nat) : Nat :=
  load order (record mem points 8 j)

theorem pointAt_lt (order : ByteOrder) (mem : Memory) (points j : Nat) :
    pointAt order mem points j < 2 ^ 64 := by
  have small := load_lt order (record mem points 8 j)
  rw [record, read_length] at small
  exact small

/-- An entry comes back from the bytes that are written for it. -/
theorem entryBytes_read (order : ByteOrder) {entry : IdOffset} (id : entry.id < 2 ^ 64)
    (offset : entry.offset < 2 ^ 32) :
    (⟨convert64 order (load order ((entryBytes order entry).take 8)),
      convert32 order (load order ((entryBytes order entry).drop 8))⟩ : IdOffset) = entry := by
  have size : (store order 8 (convert64 order entry.id)).length = 8 := store_length order 8 _
  have wide : store order 8 (convert64 order entry.id) = little 8 entry.id :=
    store_convert order .uint64 id
  have narrow : store order 4 (convert32 order entry.offset) = little 4 entry.offset :=
    store_convert order .uint32 offset
  have wide' : convert64 order (load order (little 8 entry.id)) = littleNum (little 8 entry.id) :=
    convert_load order .uint64 (little_length 8 _)
  have narrow' : convert32 order (load order (little 4 entry.offset)) =
      littleNum (little 4 entry.offset) := convert_load order .uint32 (little_length 4 _)
  rw [entryBytes, List.take_left' size, List.drop_left' size, wide, narrow, wide', narrow',
    littleNum_little id, littleNum_little offset]

section
variable {tree version : List MemBlock} {addr : Nat} {target : GetTargetOffset}
variable {entries : List IdOffset} {ret : Int}

theorem blockEntry_small (target : GetTargetOffset) (b : MemBlock) {id : Nat}
    (word : id < 2 ^ 64) (offset : Int) :
    ∀ e ∈ (blockEntry target b id offset).1, e.id < 2 ^ 64 ∧ e.offset < 2 ^ 32 := by
  intro e member
  generalize made : target offset b.typeId b.typeNum = tmp
  by_cases failed : tmp < 0
  · simp [blockEntry, made, failed] at member
  · have low : 0 ≤ u32 tmp ∧ u32 tmp < 2 ^ 32 := by
      unfold u32
      omega
    simp [blockEntry, made, failed] at member
    subst member
    exact ⟨word, by dsimp only; omega⟩

theorem versionWrites_small (ids : Ids tree version)
    (made : versionWrites target version addr = some (entries, ret)) :
    ∀ e ∈ entries, e.id < 2 ^ 64 ∧ e.offset < 2 ^ 32 := by
  obtain ⟨b, under, made⟩ := Option.map_eq_some_iff.mp made
  split at made
  next offset _ =>
    have small := blockEntry_small target b (ids.ids b (floor_some under).1).1 offset
    rw [made] at small
    exact small
  · cases made
    simp

/-- Ids and offsets of entries fit their fields. -/
theorem pointWrites_small (ids : Ids tree version)
    (made : pointWrites target tree version addr = some (entries, ret)) :
    ∀ e ∈ entries, e.id < 2 ^ 64 ∧ e.offset < 2 ^ 32 := by
  unfold pointWrites at made
  split at made
  · cases made
    simp
  · split at made
    · exact versionWrites_small ids made
    next b offset found =>
      obtain ⟨c, under, here⟩ := Option.bind_eq_some_iff.mp found
      obtain ⟨_, _, same⟩ := Option.map_eq_some_iff.mp here
      cases same
      have small := blockEntry_small target b (ids.tmpIds b (floor_some under).1).1
        offset
      have made := Option.some.inj made
      split at made
      · cases made
        intro e member
        rcases List.mem_cons.mp member with rfl | member
        · simp
        · exact small e member
      · rw [made] at small
        exact small

theorem blockEntry_ret (target : GetTargetOffset) (b : MemBlock) (id : Nat) (offset : Int) :
    (blockEntry target b id offset).2 = 0 ∨ (blockEntry target b id offset).2 = -1 := by
  by_cases failed : target offset b.typeId b.typeNum < 0 <;> simp [blockEntry, failed]

theorem pointWrites_ret (made : pointWrites target tree version addr = some (entries, ret)) :
    ret = 0 ∨ ret = -1 := by
  unfold pointWrites at made
  split at made
  · cases made
    exact .inl rfl
  · split at made
    · obtain ⟨b, _, made⟩ := Option.map_eq_some_iff.mp made
      split at made
      next offset _ =>
        have rets := blockEntry_ret target b b.id offset
        rw [made] at rets
        exact rets
      · cases made
        exact .inl rfl
    next b offset _ =>
      have rets := blockEntry_ret target b b.tmpId offset
      have made := Option.some.inj made
      split at made
      · cases made
        exact rets
      · rw [made] at rets
        exact rets

end

/-- The setting of a translation: a tree and a version with their blocks, and the tables. -/
structure Setting (target back : GetTargetOffset) (block : B → MemBlock) (tree : PairTree P B)
    (version info : VersionInfo B) (t : AvlTree.NodeTree P) (ours theirs : List MemBlock)
    (points idOffset points' n : Nat) : Prop where
  tree : TreeBlocks block tree t ours
  version : VersionBlocks block version theirs
  apart : Apart ours
  apart' : Apart theirs
  ids : Ids ours theirs
  small : ∀ o t n, target o t n < 2 ^ 31
  inverse : ∀ o t n, 0 ≤ o → 0 ≤ target o t n → back (target o t n) t n = o
  ascending : info.orderId.Pairwise (·.id < ·.id)
  ahead : Ahead points 8 idOffset 12 n
  ahead' : Ahead idOffset 12 points' 8 n

section
variable {target back : GetTargetOffset} {block : B → MemBlock} {tree : PairTree P B}
variable {version info : VersionInfo B} {t : AvlTree.NodeTree P} {ours theirs : List MemBlock}
variable {points idOffset points' n fuel : Nat} {order : ByteOrder} {mem mem₁ mem₂ : Memory}

section
variable [DecidableEq P]
variable (s : Setting target back block tree version info t ours theirs points idOffset points' n)
include s

theorem Setting.pointRecord (enough : t.height < fuel) (enough' : version.orderAddr.length < fuel)
    (bytes : List UInt8) : pointRecord fuel target block order tree version bytes =
      (pointWrites target ours theirs (load order bytes)).map fun entry =>
        (((entry.1.getLast?).map (entryBytes order)).getD [], entry.2) := by
  rw [PointTable.pointRecord, pointEntry_writes target s.tree s.version s.apart' _ enough enough']

/-- More fuel does not change what points_to_id_offset does. -/
theorem Setting.pointsToIdOffset_fuel {fuel' : Nat} (enough : t.height < fuel)
    (enough' : version.orderAddr.length < fuel) (more : fuel ≤ fuel') :
    pointsToIdOffset fuel' target block order tree version idOffset points n mem =
      pointsToIdOffset fuel target block order tree version idOffset points n mem := by
  have same : pointTurn fuel' target block order tree version idOffset points =
      pointTurn fuel target block order tree version idOffset points := by
    funext j mem
    rw [pointTurn, pointTurn,
      pointEntry_writes target s.tree s.version s.apart' _ enough enough',
      pointEntry_writes target s.tree s.version s.apart' _ (Nat.lt_of_lt_of_le enough more)
        (Nat.lt_of_lt_of_le enough' more)]
  rw [pointsToIdOffset, pointsToIdOffset, same]

omit [DecidableEq P] in
theorem Setting.entryAt_made {j : Nat} {entries : List IdOffset} {ret : Int}
    (writes : pointWrites target ours theirs (pointAt order mem points j) = some (entries, ret))
    {last : IdOffset} (final : entries.getLast? = some last)
    (written : record mem₁ idOffset 12 j = entryBytes order last) :
    entryAt order (idOffset + 12 * j) mem₁ = last := by
  obtain ⟨id, offset⟩ := pointWrites_small s.ids writes last (List.mem_of_getLast? final)
  rw [entryAt_eq, written]
  exact entryBytes_read order id offset

/-- Where the entries due are all made, points_to_id_offset ends with them. -/
theorem Setting.entries_of_made
    (all : ∀ j < n, Made target ours theirs (pointAt order mem points j)) :
    ∃ mem₁, Returns (fun fuel =>
        pointsToIdOffset fuel target block order tree version idOffset points n mem) (mem₁, 0) ∧
      ∀ j < n, entryAt order (idOffset + 12 * j) mem₁ =
        due target ours theirs (pointAt order mem points j) := by
  obtain ⟨f, enough, enough'⟩ : ∃ f, t.height < f ∧ version.orderAddr.length < f :=
    ⟨t.height + version.orderAddr.length + 1, by omega, by omega⟩
  have converts : Converts (PointTable.pointRecord f target block order tree version) points 8
      idOffset 12 (pointTurn f target block order tree version idOffset points) :=
    pointTurn_converts idOffset points
  have records : ∀ j < n, ∃ out,
      PointTable.pointRecord f target block order tree version (record mem points 8 j) =
        some (out, 0) := by
    intro j less
    obtain ⟨entries, writes, last⟩ := all j less
    rw [s.pointRecord enough enough']
    exact ⟨_, Option.map_eq_some_iff.mpr ⟨_, writes, rfl⟩⟩
  obtain ⟨mem₁, ran⟩ := converts.turns_all s.ahead (Nat.le_refl n) records
  refine ⟨mem₁, ⟨f, fun fuel more => ?_⟩, fun j less => ?_⟩
  · exact (s.pointsToIdOffset_fuel enough enough' (Nat.le_of_lt more)).trans ran
  · obtain ⟨_, reads⟩ := converts.turns_reads s.ahead (Nat.le_refl n) ran (Int.le_refl 0)
    obtain ⟨ret, made⟩ := reads j less
    obtain ⟨entries, writes, last⟩ := all j less
    rw [s.pointRecord enough enough'] at made
    obtain ⟨entry, writes', same⟩ := Option.map_eq_some_iff.mp made
    cases writes.symm.trans writes'
    rw [last] at same
    exact s.entryAt_made writes last (congrArg Prod.fst same).symm

/-- Where points_to_id_offset ends with the entries due, it has made each of them. -/
theorem Setting.made_of_entries (ran : Returns (fun fuel =>
      pointsToIdOffset fuel target block order tree version idOffset points n mem) (mem₁, 0))
    (entries : ∀ j < n, entryAt order (idOffset + 12 * j) mem₁ =
      due target ours theirs (pointAt order mem points j)) :
    ∀ j < n, Made target ours theirs (pointAt order mem points j) := by
  obtain ⟨k, ran⟩ := ran
  obtain ⟨f, more, enough, enough'⟩ :
      ∃ f, k < f ∧ t.height < f ∧ version.orderAddr.length < f :=
    ⟨k + t.height + version.orderAddr.length + 1, by omega, by omega, by omega⟩
  have ran := ran f more
  have converts : Converts (PointTable.pointRecord f target block order tree version) points 8
      idOffset 12 (pointTurn f target block order tree version idOffset points) :=
    pointTurn_converts idOffset points
  intro j less
  obtain ⟨_, reads⟩ := converts.turns_reads s.ahead (Nat.le_refl n) ran (Int.le_refl 0)
  obtain ⟨ret, made⟩ := reads j less
  obtain ⟨out, ret', made', ok⟩ := converts.turns_each s.ahead (Nat.le_refl n) ran
    (Int.le_refl 0) j less
  cases made.symm.trans made'
  rw [s.pointRecord enough enough'] at made
  obtain ⟨⟨found, ret⟩, writes, same⟩ := Option.map_eq_some_iff.mp made
  obtain ⟨written, rfl⟩ := Prod.mk.inj same
  have entry : pointEntry f target block tree version (pointAt order mem points j) =
      some (found, ret) :=
    (pointEntry_writes target s.tree s.version s.apart' _ enough enough').trans writes
  have final := List.getLast?_eq_some_getLast (pointEntry_written entry ok)
  have last : entryAt order (idOffset + 12 * j) mem₁ = _ :=
    s.entryAt_made writes final (by rw [← written, final]; rfl)
  rcases pointWrites_ret writes with rfl | rfl
  · exact ⟨found, writes, by rw [final, ← entries j less, last]⟩
  · contradiction

end

theorem restored_lt {entry : IdOffset} {addr : Nat}
    (found : restored back block info entry = some addr) : addr < 2 ^ 64 := by
  unfold restored at found
  split at found
  · cases found
    decide
  · obtain ⟨pair, _, made⟩ := Option.bind_eq_some_iff.mp found
    dsimp only at made
    split at made
    · contradiction
    · cases made
      unfold u64
      omega

theorem offsetRecord_eq (ascending : info.orderId.Pairwise (·.id < ·.id))
    (enough : info.orderId.length < fuel) (mem : Memory) (idOffset j : Nat) :
    offsetRecord fuel back block order info (record mem idOffset 12 j) =
      let point := restored back block info (entryAt order (idOffset + 12 * j) mem)
      some ((point.map (store order 8)).getD [], if point.isNone then -1 else 0) := by
  rw [offsetRecord, ← entryAt_eq, entryPoint_eq ascending enough]
  rfl

/-- More fuel does not change what id_offset_to_points does. -/
theorem idOffsetToPoints_fuel (ascending : info.orderId.Pairwise (·.id < ·.id)) {fuel' : Nat}
    (enough : info.orderId.length < fuel) (more : fuel ≤ fuel') :
    idOffsetToPoints fuel' back block order info points idOffset n mem =
      idOffsetToPoints fuel back block order info points idOffset n mem := by
  have same : offsetTurn fuel' back block order info points idOffset =
      offsetTurn fuel back block order info points idOffset := by
    funext i mem
    simp only [offsetTurn, entryPoint_eq ascending enough,
      entryPoint_eq ascending (Nat.lt_of_lt_of_le enough more)]
  rw [idOffsetToPoints, idOffsetToPoints, same]

/-- Where all entries give pointers, id_offset_to_points ends with them. -/
theorem points_of_restored (ascending : info.orderId.Pairwise (·.id < ·.id))
    (ahead : Ahead idOffset 12 points 8 n)
    (all : ∀ j < n, (restored back block info (entryAt order (idOffset + 12 * j) mem)).isSome) :
    ∃ mem₁, Returns (fun fuel =>
        idOffsetToPoints fuel back block order info points idOffset n mem) (mem₁, 0) ∧
      ∀ j < n, restored back block info (entryAt order (idOffset + 12 * j) mem) =
        some (pointAt order mem₁ points j) := by
  have enough := Nat.lt_succ_self info.orderId.length
  have converts : Converts (offsetRecord _ back block order info) idOffset 12 points 8
      (offsetTurn (info.orderId.length + 1) back block order info points idOffset) :=
    offsetTurn_converts points idOffset
  have records : ∀ j < n, ∃ out, offsetRecord (info.orderId.length + 1) back block order info
      (record mem idOffset 12 j) = some (out, 0) := by
    intro j less
    obtain ⟨addr, found⟩ := Option.isSome_iff_exists.mp (all j less)
    rw [offsetRecord_eq ascending enough, found]
    exact ⟨_, rfl⟩
  obtain ⟨mem₁, ran⟩ := converts.turns_all ahead (Nat.le_refl n) records
  refine ⟨mem₁, ⟨info.orderId.length + 1, fun fuel more => ?_⟩, fun j less => ?_⟩
  · exact (idOffsetToPoints_fuel ascending enough (Nat.le_of_lt more)).trans ran
  · obtain ⟨_, reads⟩ := converts.turns_reads ahead (Nat.le_refl n) ran (Int.le_refl 0)
    obtain ⟨ret, made⟩ := reads j less
    obtain ⟨addr, found⟩ := Option.isSome_iff_exists.mp (all j less)
    rw [offsetRecord_eq ascending enough, found] at made
    have written : store order 8 addr = record mem₁ points 8 j :=
      congrArg Prod.fst (Option.some.inj made)
    rw [found, pointAt, ← written, load_store order (restored_lt found)]

/-- id_offset_to_points fails if and only if an entry gives no pointer. -/
theorem fails_iff_refused (ascending : info.orderId.Pairwise (·.id < ·.id))
    (ahead : Ahead idOffset 12 points 8 n) :
    (∃ mem₁, Returns (fun fuel =>
        idOffsetToPoints fuel back block order info points idOffset n mem) (mem₁, -1)) ↔
      ∃ j < n, restored back block info (entryAt order (idOffset + 12 * j) mem) = none := by
  constructor
  · rintro ⟨mem₁, ran⟩
    by_contra none'
    have all : ∀ j < n,
        (restored back block info (entryAt order (idOffset + 12 * j) mem)).isSome := by
      intro j less
      by_contra refused
      exact none' ⟨j, less, Option.not_isSome_iff_eq_none.mp refused⟩
    obtain ⟨mem₂, ran', _⟩ := points_of_restored ascending ahead all
    have same := ran.unique ran'
    cases same
  · rintro ⟨j, less, refused⟩
    have enough := Nat.lt_succ_self info.orderId.length
    have converts : Converts (offsetRecord _ back block order info) idOffset 12 points 8
        (offsetTurn (info.orderId.length + 1) back block order info points idOffset) :=
      offsetTurn_converts points idOffset
    have settles : ∀ k < n, ∃ out ret, offsetRecord (info.orderId.length + 1) back block order
        info (record mem idOffset 12 k) = some (out, ret) ∧ (ret = 0 ∨ ret = -1) := by
      intro k _
      rw [offsetRecord_eq ascending enough]
      refine ⟨_, _, rfl, ?_⟩
      split
      · exact .inr rfl
      · exact .inl rfl
    have stops : offsetRecord (info.orderId.length + 1) back block order info
        (record mem idOffset 12 j) = some ([], -1) := by
      rw [offsetRecord_eq ascending enough, refused]
      rfl
    obtain ⟨mem₁, ran⟩ := converts.turns_stop ahead (Nat.le_refl n) settles ⟨j, less, _, stops⟩
    exact ⟨mem₁, info.orderId.length + 1, fun fuel more =>
      (idOffsetToPoints_fuel ascending enough (Nat.le_of_lt more)).trans ran⟩

end

/-- An entry gives no pointer: there is no block of its id or below, or its offset does not
translate in the block found. -/
def Refused (back : GetTargetOffset) (block : B → MemBlock) (info : VersionInfo B)
    (entry : IdOffset) : Prop :=
  ¬ (entry.id = 0 ∧ entry.offset = 0) ∧
    ∀ pair, floor Pairs.AddrPair.id info.orderId entry.id = some pair →
      back (i32 entry.offset) (block pair.addr).typeId (block pair.addr).typeNum < 0

/-- The id of a pointer's block names no block of a version. -/
def Unknown (ours theirs : List MemBlock) (info : VersionInfo B) (addr : Nat) : Prop :=
  ∃ id b, named ours theirs addr = some (id, b) ∧ ∀ pair ∈ info.orderId, pair.id ≠ id

/-- The pointers of a table become the entries due, and these become the pointers again where the
version `info` has their blocks, and are refused where it has none of some id. -/
def TotalInverse (order : ByteOrder) (target back : GetTargetOffset) (block : B → MemBlock)
    (tree : PairTree P B) (version info : VersionInfo B) (ours theirs : List MemBlock)
    (points idOffset points' n : Nat) (mem : Memory) : Prop :=
  ∃ mem₁, Returns (fun fuel =>
      pointsToIdOffset fuel target block order tree version idOffset points n mem) (mem₁, 0) ∧
    (∀ j < n, entryAt order (idOffset + 12 * j) mem₁ =
      due target ours theirs (pointAt order mem points j)) ∧
    ((∀ j < n, ∀ id b, named ours theirs (pointAt order mem points j) = some (id, b) →
        Has block info id b) →
      ∃ mem₂, Returns (fun fuel =>
          idOffsetToPoints fuel back block order info points' idOffset n mem₁) (mem₂, 0) ∧
        ∀ j < n, pointAt order mem₂ points' j =
          if (named ours theirs (pointAt order mem points j)).isSome then
            pointAt order mem points j
          else 0) ∧
    ((∃ j < n, Unknown ours theirs info (pointAt order mem points j)) →
      ∃ mem₂, Returns (fun fuel =>
        idOffsetToPoints fuel back block order info points' idOffset n mem₁) (mem₂, -1))

section
variable {target back : GetTargetOffset} {block : B → MemBlock} {tree : PairTree P B}
variable {version info : VersionInfo B} {t : AvlTree.NodeTree P} {ours theirs : List MemBlock}
variable {points idOffset points' n : Nat} {order : ByteOrder} {mem mem₁ : Memory}

theorem restored_none {entry : IdOffset} :
    restored back block info entry = none ↔ Refused back block info entry := by
  unfold restored Refused
  split
  next null => simp [null]
  next some' =>
    rw [and_iff_right some', Option.bind_eq_none_iff]
    constructor
    · intro all pair found
      have refused := all pair found
      dsimp only at refused
      split at refused
      · assumption
      · contradiction
    · intro all pair found
      exact if_pos (all pair found)

/-- The pointers come back where the version has their blocks. -/
theorem Setting.comes_back
    (s : Setting target back block tree version info t ours theirs points idOffset points' n)
    (translates : ∀ j < n, Translates target ours theirs (pointAt order mem points j))
    (entries : ∀ j < n, entryAt order (idOffset + 12 * j) mem₁ =
      due target ours theirs (pointAt order mem points j))
    (has : ∀ j < n, ∀ id b, named ours theirs (pointAt order mem points j) = some (id, b) →
      Has block info id b) :
    ∃ mem₂, Returns (fun fuel =>
        idOffsetToPoints fuel back block order info points' idOffset n mem₁) (mem₂, 0) ∧
      ∀ j < n, pointAt order mem₂ points' j =
        if (named ours theirs (pointAt order mem points j)).isSome then
          pointAt order mem points j
        else 0 := by
  have each : ∀ j < n, restored back block info (entryAt order (idOffset + 12 * j) mem₁) =
      some (if (named ours theirs (pointAt order mem points j)).isSome then
        pointAt order mem points j else 0) := by
    intro j less
    rw [entries j less]
    cases name : named ours theirs (pointAt order mem points j) with
    | none => exact restored_unnamed name
    | some pair =>
      obtain ⟨id, b⟩ := pair
      exact restored_named s.ids s.small s.inverse s.ascending (pointAt_lt order mem points j)
        (translates j less) name (has j less id b name)
  obtain ⟨mem₂, ran, values⟩ := points_of_restored s.ascending s.ahead' fun j less => by
    rw [each j less]
    rfl
  exact ⟨mem₂, ran, fun j less => Option.some.inj ((values j less).symm.trans (each j less))⟩

end

/-- The layout of both sides is the same. -/
def sameOffset : GetTargetOffset := fun offset _ _ => if offset < 2 ^ 31 then offset else -1

/-- A block of 64 bytes at 4096. -/
def lowBlock (_ : Unit) : MemBlock := ⟨1, 0, 4096, 0, 0, 1, 64⟩

def lowVersion : VersionInfo Unit := ⟨[⟨4096, ()⟩], [⟨1, ()⟩]⟩

def noTree : PairTree Unit Unit :=
  ⟨⟨fun _ => detached, none⟩, fun _ => ⟨0, none⟩, fun _ => false⟩

/-- A table of one pointer at 0. -/
def onePoint (addr : Nat) : Memory := write (fun _ => 0) 0 (store .little 8 addr)

theorem lowVersion_setting : Setting sameOffset sameOffset lowBlock noTree lowVersion lowVersion
    .nil [] [lowBlock ()] 0 100 200 1 := by
  constructor
  case tree => exact ⟨⟨rfl, trivial, trivial, .nil⟩, rfl, by simp [AvlTree.NodeTree.toList]⟩
  case version => exact ⟨rfl, by simp [lowVersion, lowBlock]⟩
  case apart => exact ⟨.nil, .nil, by simp⟩
  case apart' =>
    exact ⟨List.pairwise_singleton _ _, List.pairwise_singleton _ _, by simp [lowBlock]⟩
  case ids => exact ⟨by simp, by simp [lowBlock]⟩
  case small =>
    intro o _ _
    unfold sameOffset
    split <;> omega
  case inverse =>
    intro o t n low fits
    by_cases less : o < 2 ^ 31
    · simp only [sameOffset, less, if_true]
    · rw [sameOffset, if_neg less] at fits
      contradiction
  case ascending => exact List.pairwise_singleton _ _
  case ahead => exact ahead_apart (by omega)
  case ahead' => exact ahead_apart (by omega)

theorem onePoint_at {addr : Nat} (word : addr < 256 ^ 8) :
    pointAt .little (onePoint addr) 0 0 = addr := by
  have size : (store .little 8 addr).length = 8 := store_length .little 8 addr
  have bytes : record (onePoint addr) 0 8 0 = store .little 8 addr := read_written size
  rw [pointAt, bytes, load_store .little word]

/-- A pointer below the blocks of the version is not translated: its block is read from NULL. -/
theorem low_pointer_stops :
    Setting sameOffset sameOffset lowBlock noTree lowVersion lowVersion .nil [] [lowBlock ()]
        0 100 200 1 ∧
      (∀ j < 1, Translates sameOffset [] [lowBlock ()] (pointAt .little (onePoint 16) 0 j)) ∧
      ¬ TotalInverse .little sameOffset sameOffset lowBlock noTree lowVersion lowVersion []
        [lowBlock ()] 0 100 200 1 (onePoint 16) := by
  have point : pointAt .little (onePoint 16) 0 0 = 16 := onePoint_at (by decide)
  refine ⟨lowVersion_setting, ?_, ?_⟩
  · intro j less
    obtain rfl : j = 0 := by omega
    rw [point]
    intro _ b found
    cases found
  · rintro ⟨mem₁, ran, entries, _⟩
    obtain ⟨made, writes, _⟩ := lowVersion_setting.made_of_entries ran entries 0 (by decide)
    rw [point] at writes
    cases writes

/-- The pointers of a table are translated and come back if and only if each of them finds its
block, and an unknown id does not come to another block. -/
theorem total_inverse_iff [DecidableEq P] {target back : GetTargetOffset} {block : B → MemBlock}
    {tree : PairTree P B} {version info : VersionInfo B} {t : AvlTree.NodeTree P}
    {ours theirs : List MemBlock} {points idOffset points' n : Nat}
    (s : Setting target back block tree version info t ours theirs points idOffset points' n)
    (order : ByteOrder) (mem : Memory)
    (translates : ∀ j < n, Translates target ours theirs (pointAt order mem points j)) :
    TotalInverse order target back block tree version info ours theirs points idOffset points' n
        mem ↔
      (∀ j < n, Proper target ours theirs (pointAt order mem points j)) ∧
        ((∃ j < n, Unknown ours theirs info (pointAt order mem points j)) →
          ∃ j < n, Refused back block info
            (due target ours theirs (pointAt order mem points j))) := by
  have proper : ∀ j < n, (Made target ours theirs (pointAt order mem points j) ↔
      Proper target ours theirs (pointAt order mem points j)) := fun j less =>
    made_iff s.apart s.apart' s.ids s.small (translates j less)
  constructor
  · rintro ⟨mem₁, ran, entries, _, refused⟩
    refine ⟨fun j less => (proper j less).mp (s.made_of_entries ran entries j less), ?_⟩
    intro unknown
    obtain ⟨j, less, none'⟩ := (fails_iff_refused s.ascending s.ahead').mp (refused unknown)
    rw [entries j less] at none'
    exact ⟨j, less, restored_none.mp none'⟩
  · rintro ⟨all, refused⟩
    obtain ⟨mem₁, ran, entries⟩ :=
      s.entries_of_made fun j less => (proper j less).mpr (all j less)
    refine ⟨mem₁, ran, entries, s.comes_back translates entries, fun unknown => ?_⟩
    obtain ⟨j, less, stops⟩ := refused unknown
    apply (fails_iff_refused s.ascending s.ahead').mpr
    exact ⟨j, less, by rw [entries j less]; exact restored_none.mpr stops⟩

theorem total_inverse_inside : TotalInverse .little sameOffset sameOffset lowBlock noTree
    lowVersion lowVersion [] [lowBlock ()] 0 100 200 1 (onePoint 4100) := by
  have point : pointAt .little (onePoint 4100) 0 0 = 4100 := onePoint_at (by decide)
  have only : ∀ j < 1, pointAt .little (onePoint 4100) 0 j = 4100 := by
    intro j less
    obtain rfl : j = 0 := by omega
    exact point
  refine (total_inverse_iff lowVersion_setting .little (onePoint 4100) ?_).mpr ⟨?_, ?_⟩
  · intro j less
    rw [only j less]
    intro _ b found
    cases found
    decide
  · intro j less
    rw [only j less]
    exact .inr ⟨lowBlock (), rfl, fun _ => by decide⟩
  · rintro ⟨j, less, id, b, name, unknown⟩
    rw [only j less] at name
    cases name
    exact absurd rfl (unknown ⟨1, ()⟩ (List.mem_singleton.mpr rfl))

end MoonInWater.Sync.PointTable
