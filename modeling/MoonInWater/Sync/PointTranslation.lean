import MoonInWater.Sync.BlockLookup

/-! The translation of pointers: what points_to_id_offset has to write for each, and which pointers
come back from id_offset_to_points. -/
namespace MoonInWater.Sync.PointTable
open CInt Pairs Avl Floor Fuel Endian Bytes

variable {P B : Type}

/-- The id and the block that a pointer stands for; none where it is NULL, outside every block, or
in one that is deleted. -/
def named (tree version : List MemBlock) (addr : Nat) : Option (Nat × MemBlock) :=
  if addr = 0 then none
  else
    match blockAt tree addr with
    | some b => if 0 < b.isDel then none else some (b.tmpId, b)
    | none => (blockAt version addr).map fun b => (b.id, b)

section
variable (target : GetTargetOffset)

def translated (b : MemBlock) (addr : Nat) : Int :=
  target ((addr : Int) - b.virtualAddr) b.typeId b.typeNum

/-- The entry of a pointer. -/
def due (tree version : List MemBlock) (addr : Nat) : IdOffset :=
  match named tree version addr with
  | none => ⟨0, 0⟩
  | some (id, b) => ⟨id, (translated target b addr).toNat⟩

/-- A pointer into a block translates. -/
def Translates (tree version : List MemBlock) (addr : Nat) : Prop :=
  addr ≠ 0 → ∀ b, (blockAt tree addr).or (blockAt version addr) = some b →
    0 ≤ translated target b addr

/-- What points_to_id_offset makes of a pointer is the entry due: the tree gives no block, or one
that the pointer is in and that is not deleted, and else the version has a block below the pointer,
which it is in if it passes for it. A wrong block of the tree may still make the entry due. -/
def Proper (tree version : List MemBlock) (addr : Nat) : Prop :=
  addr = 0 ∨
    match hit tree addr with
    | some (b, offset) =>
      b.isDel ≤ 0 ∧ Inside addr b ∨
        0 ≤ target offset b.typeId b.typeNum ∧
          due target tree version addr = ⟨b.tmpId, (target offset b.typeId b.typeNum).toNat⟩
    | none => ∃ b, below version addr = some b ∧
        ((getVirtualAddressInfo b addr).isSome → Inside addr b)

end

/-- The ids that the blocks of a tree and of a version get in entries; 0 is that of no block. -/
structure Ids (tree version : List MemBlock) : Prop where
  tmpIds : ∀ b ∈ tree, b.tmpId < 2 ^ 64 ∧ (b.isDel ≤ 0 → b.tmpId ≠ 0)
  ids : ∀ b ∈ version, b.id < 2 ^ 64 ∧ b.id ≠ 0

section
variable {blocks tree version : List MemBlock} {b c : MemBlock} {addr : Nat} {offset : Int}
variable {target : GetTargetOffset}

theorem info_inside (inside : Inside addr b) (len : b.dataLen < 2 ^ 31) :
    getVirtualAddressInfo b addr = some ((addr : Int) - b.virtualAddr) := by
  obtain ⟨low, high⟩ := inside
  rw [getVirtualAddressInfo, i32_eq (by omega) (by omega), if_neg (by omega)]

theorem Apart.ends (apart : Apart blocks) (member : b ∈ blocks) (member' : c ∈ blocks)
    (less : b.virtualAddr < c.virtualAddr) : (b.virtualAddr : Int) + b.dataLen ≤ c.virtualAddr := by
  obtain ⟨i, inside, rfl⟩ := List.mem_iff_getElem.mp member
  obtain ⟨j, inside', rfl⟩ := List.mem_iff_getElem.mp member'
  have order := List.pairwise_iff_getElem.mp apart.order
  rcases Nat.lt_trichotomy i j with before | same | behind
  · exact List.pairwise_iff_getElem.mp apart.apart i j inside inside' before
  · subst same
    exact absurd less (Nat.lt_irrefl _)
  · exact absurd less (Nat.lt_asymm (order j i inside' inside behind))

/-- A pointer is in a block if and only if it is in the one below it. -/
theorem blockAt_iff (apart : Apart blocks) :
    blockAt blocks addr = some b ↔ below blocks addr = some b ∧ Inside addr b := by
  have up : ∀ {b}, blockAt blocks addr = some b → below blocks addr = some b ∧ Inside addr b := by
    intro b found
    have member := List.mem_of_find?_eq_some found
    have inside : Inside addr b := by simpa using List.find?_some found
    refine ⟨floor_eq apart.order member inside.1 fun c member' under => ?_, inside⟩
    by_contra above
    have ends := apart.ends member member' (Nat.lt_of_not_le above)
    have high := inside.2
    omega
  constructor
  · exact up
  · rintro ⟨found, inside⟩
    obtain ⟨member, _⟩ := floor_some found
    cases at' : blockAt blocks addr with
    | none =>
      have outside := List.find?_eq_none.mp at' b member
      simp [inside] at outside
    | some c => rw [← (up at').1, found]

theorem hit_blockAt (apart : Apart blocks) (found : blockAt blocks addr = some b) :
    hit blocks addr = some (b, (addr : Int) - b.virtualAddr) := by
  obtain ⟨under, inside⟩ := (blockAt_iff apart).mp found
  have member := (floor_some under).1
  rw [hit, under, Option.bind_some, info_inside inside (apart.len b member)]
  rfl

theorem hit_inside (apart : Apart blocks) (found : hit blocks addr = some (b, offset))
    (inside : Inside addr b) :
    blockAt blocks addr = some b ∧ offset = (addr : Int) - b.virtualAddr := by
  obtain ⟨c, under, made⟩ := Option.bind_eq_some_iff.mp found
  obtain ⟨_, info, same⟩ := Option.map_eq_some_iff.mp made
  cases same
  have here := (blockAt_iff apart).mpr ⟨under, inside⟩
  have known := info_inside inside (apart.len b (floor_some under).1)
  exact ⟨here, Option.some.inj (info.symm.trans known)⟩

/-- What a pointer stands for, by the search of the tree. -/
theorem named_tree (some' : addr ≠ 0) (found : blockAt tree addr = some b) :
    named tree version addr = if 0 < b.isDel then none else some (b.tmpId, b) := by
  rw [named, if_neg some', found]

theorem named_version (some' : addr ≠ 0) (outside : blockAt tree addr = none) :
    named tree version addr = (blockAt version addr).map fun b => (b.id, b) := by
  rw [named, if_neg some', outside]

/-- The search of a tree comes to no block that the pointer is in. -/
theorem outside_of_hit (apart : Apart tree) (found : hit tree addr = some (b, offset))
    (outside : ¬ Inside addr b) : blockAt tree addr = none := by
  cases at' : blockAt tree addr with
  | none => rfl
  | some c =>
    have same := (hit_blockAt apart at').symm.trans found
    cases same
    exact absurd ((blockAt_iff apart).mp at').2 outside

theorem outside_of_miss (apart : Apart tree) (missed : hit tree addr = none) :
    blockAt tree addr = none := by
  cases at' : blockAt tree addr with
  | none => rfl
  | some c => exact absurd (missed.symm.trans (hit_blockAt apart at')) (by simp)

/-- points_to_id_offset makes the entry due of a pointer. -/
def Made (target : GetTargetOffset) (tree version : List MemBlock) (addr : Nat) : Prop :=
  ∃ entries, pointWrites target tree version addr = some (entries, 0) ∧
    entries.getLast? = some (due target tree version addr)

theorem blockEntry_made (small : ∀ o t n, target o t n < 2 ^ 31) (id : Nat) {entry : IdOffset} :
    ((blockEntry target b id offset).2 = 0 ∧
        (blockEntry target b id offset).1.getLast? = some entry) ↔
      0 ≤ target offset b.typeId b.typeNum ∧
        entry = ⟨id, (target offset b.typeId b.typeNum).toNat⟩ := by
  have bound := small offset b.typeId b.typeNum
  generalize made : target offset b.typeId b.typeNum = tmp at bound
  by_cases failed : tmp < 0
  · simp [blockEntry, made, failed]
  · have word : u32 tmp = tmp := u32_eq (by omega) (by omega)
    simp [blockEntry, made, failed, word, eq_comm]
    omega

/-- Where the tree gives a block, the entry made is that of the block, deleted or not. -/
theorem made_tree (small : ∀ o t n, target o t n < 2 ^ 31) (some' : addr ≠ 0)
    (found : hit tree addr = some (b, offset)) :
    Made target tree version addr ↔ 0 ≤ target offset b.typeId b.typeNum ∧
      due target tree version addr =
        ⟨b.tmpId, (target offset b.typeId b.typeNum).toNat⟩ := by
  rw [← blockEntry_made small, Made, pointWrites, if_neg some', found]
  dsimp only
  generalize made : blockEntry target b b.tmpId offset = entry
  have written : 0 ≤ entry.2 → entry.1 ≠ [] := by
    rw [← made]
    exact blockEntry_written
  obtain ⟨entries, ret⟩ := entry
  constructor
  · rintro ⟨entries', same, last⟩
    split at same
    · cases same
      obtain ⟨entry, rest, rfl⟩ := List.exists_cons_of_ne_nil (written (Int.le_refl 0))
      rw [List.getLast?_cons_cons] at last
      exact ⟨rfl, last⟩
    · cases same
      exact ⟨rfl, last⟩
  · rintro ⟨rfl, last⟩
    split
    · obtain ⟨entry, rest, rfl⟩ := List.exists_cons_of_ne_nil (written (Int.le_refl 0))
      exact ⟨_, rfl, by rw [List.getLast?_cons_cons]; exact last⟩
    · exact ⟨_, rfl, last⟩

/-- Where the tree gives no block, the block of the version below the pointer has to be there. -/
theorem made_version (apart : Apart tree) (apart' : Apart version) (ids : Ids tree version)
    (small : ∀ o t n, target o t n < 2 ^ 31) (translates : Translates target tree version addr)
    (some' : addr ≠ 0) (missed : hit tree addr = none) :
    Made target tree version addr ↔ ∃ b, below version addr = some b ∧
      ((getVirtualAddressInfo b addr).isSome → Inside addr b) := by
  have outside := outside_of_miss apart missed
  have name : named tree version addr = _ := named_version some' outside
  rw [Made, pointWrites, if_neg some', missed]
  dsimp only
  cases under : below version addr with
  | none => simp [versionWrites, under]
  | some b =>
    have member := (floor_some under).1
    by_cases inside : Inside addr b
    · have here := (blockAt_iff apart').mpr ⟨under, inside⟩
      have info := info_inside inside (apart'.len b member)
      have fits := translates some' b (by rw [outside, here]; rfl)
      have entry : due target tree version addr = ⟨b.id, (translated target b addr).toNat⟩ := by
        rw [due, name, here]
        rfl
      have made := (blockEntry_made small b.id).mpr ⟨fits, entry⟩
      refine iff_of_true ⟨_, ?_, made.2⟩ ⟨b, rfl, fun _ => inside⟩
      rw [versionWrites, under, Option.map_some, info]
      exact congrArg some (Prod.ext rfl made.1)
    · have none' : blockAt version addr = none := by
        cases at' : blockAt version addr with
        | none => rfl
        | some c =>
          obtain ⟨under', inside'⟩ := (blockAt_iff apart').mp at'
          cases under.symm.trans under'
          exact absurd inside' inside
      have entry : due target tree version addr = ⟨0, 0⟩ := by
        rw [due, name, none']
        rfl
      rw [versionWrites, under, Option.map_some, entry]
      cases info : getVirtualAddressInfo b addr with
      | none => exact iff_of_true ⟨_, rfl, rfl⟩ ⟨b, rfl, fun found => by simp [info] at found⟩
      | some offset =>
        apply iff_of_false
        · rintro ⟨entries, made, last⟩
          have made : blockEntry target b b.id offset = (entries, 0) := Option.some.inj made
          have wrong := (blockEntry_made small b.id).mp
            ⟨congrArg Prod.snd made, by rw [made]; exact last⟩
          have zero := congrArg IdOffset.id wrong.2
          exact (ids.ids b member).2 zero.symm
        · rintro ⟨c, same, only⟩
          cases same
          exact inside (only (by rw [info]; rfl))

theorem made_iff (apart : Apart tree) (apart' : Apart version) (ids : Ids tree version)
    (small : ∀ o t n, target o t n < 2 ^ 31) (translates : Translates target tree version addr) :
    Made target tree version addr ↔ Proper target tree version addr := by
  by_cases null : addr = 0
  · refine iff_of_true ⟨[⟨0, 0⟩], ?_, ?_⟩ (.inl null)
    · rw [pointWrites, if_pos null]
    · rw [due, named, if_pos null]
      rfl
  · rw [Proper, or_iff_right null]
    cases found : hit tree addr with
    | none => exact made_version apart apart' ids small translates null found
    | some pair =>
      obtain ⟨b, offset⟩ := pair
      dsimp only
      rw [made_tree small null found, or_iff_right_of_imp]
      rintro ⟨live, inside⟩
      obtain ⟨here, rfl⟩ := hit_inside apart found inside
      refine ⟨translates null b (by rw [here]; rfl), ?_⟩
      rw [due, named_tree null here, if_neg (Int.not_lt.mpr live)]
      rfl

end

/-- The pointer that comes back from an entry, if one does. -/
def restored (back : GetTargetOffset) (block : B → MemBlock) (version : VersionInfo B)
    (entry : IdOffset) : Option Nat :=
  if entry.id = 0 ∧ entry.offset = 0 then some 0
  else
    (floor Pairs.AddrPair.id version.orderId entry.id).bind fun pair =>
      let b := block pair.addr
      let tmp := back (i32 entry.offset) b.typeId b.typeNum
      if tmp < 0 then none else some (u64 (b.virtualAddr + tmp)).toNat

/-- A block that is the same as to its address and type. -/
structure SameBlock (b c : MemBlock) : Prop where
  virtualAddr : b.virtualAddr = c.virtualAddr
  typeId : b.typeId = c.typeId
  typeNum : b.typeNum = c.typeNum

/-- A version has the block that a pointer stands for, under the id of its entry. -/
def Has (block : B → MemBlock) (version : VersionInfo B) (id : Nat) (b : MemBlock) : Prop :=
  ∃ pair ∈ version.orderId, pair.id = id ∧ SameBlock (block pair.addr) b

section
variable {tree version : List MemBlock} {b : MemBlock} {addr fuel id : Nat}
variable {target back : GetTargetOffset} {block : B → MemBlock} {info : VersionInfo B}

theorem entryPoint_eq (ascending : info.orderId.Pairwise (·.id < ·.id))
    (enough : info.orderId.length < fuel) (entry : IdOffset) :
    entryPoint fuel back block info entry = some (restored back block info entry) := by
  rw [entryPoint, restored]
  split
  · rfl
  · rw [searchAddrId_eq ascending entry.id enough]
    rfl

/-- What a pointer stands for is a block that it is in, with an id of its own. -/
theorem named_spec (ids : Ids tree version) (name : named tree version addr = some (id, b)) :
    addr ≠ 0 ∧ Inside addr b ∧ (blockAt tree addr).or (blockAt version addr) = some b ∧
      id ≠ 0 ∧ id < 2 ^ 64 := by
  unfold named at name
  split at name
  · contradiction
  next some' =>
    have inside : ∀ {blocks : List MemBlock} {b}, blockAt blocks addr = some b →
        b ∈ blocks ∧ Inside addr b := by
      intro blocks b found
      exact ⟨List.mem_of_find?_eq_some found, by simpa using List.find?_some found⟩
    split at name
    next c found =>
      split at name
      · contradiction
      next live =>
        cases name
        obtain ⟨small, other⟩ := ids.tmpIds b (inside found).1
        exact ⟨some', (inside found).2, by rw [found]; rfl, other (Int.not_lt.mp live), small⟩
    next outside =>
      obtain ⟨c, found, same⟩ := Option.map_eq_some_iff.mp name
      cases same
      obtain ⟨small, other⟩ := ids.ids b (inside found).1
      exact ⟨some', (inside found).2, by rw [outside, found]; rfl, other, small⟩

theorem due_named (name : named tree version addr = some (id, b)) :
    due target tree version addr = ⟨id, (translated target b addr).toNat⟩ := by
  rw [due, name]

theorem due_unnamed (name : named tree version addr = none) :
    due target tree version addr = ⟨0, 0⟩ := by
  rw [due, name]

/-- A pointer comes back where the version has its block. -/
theorem restored_named (ids : Ids tree version) (small : ∀ o t n, target o t n < 2 ^ 31)
    (inverse : ∀ o t n, 0 ≤ o → 0 ≤ target o t n → back (target o t n) t n = o)
    (ascending : info.orderId.Pairwise (·.id < ·.id)) (word : addr < 2 ^ 64)
    (translates : Translates target tree version addr)
    (name : named tree version addr = some (id, b)) (has : Has block info id b) :
    restored back block info (due target tree version addr) = some addr := by
  obtain ⟨some', inside, here, other, _⟩ := named_spec ids name
  obtain ⟨pair, member, same, place⟩ := has
  have fits : 0 ≤ translated target b addr := translates some' b here
  have bound : translated target b addr < 2 ^ 31 := small _ _ _
  have found : floor Pairs.AddrPair.id info.orderId id = some pair :=
    floor_eq ascending member (Nat.le_of_eq same) fun _ _ under => same ▸ under
  have low : 0 ≤ (addr : Int) - b.virtualAddr := by
    have := inside.1
    omega
  have undone : back (translated target b addr) b.typeId b.typeNum = (addr : Int) - b.virtualAddr :=
    inverse _ _ _ low fits
  have narrow : i32 ((translated target b addr).toNat : Int) = translated target b addr := by
    rw [Int.toNat_of_nonneg fits]
    exact i32_eq (by omega) bound
  have whole : (b.virtualAddr : Int) + ((addr : Int) - b.virtualAddr) = addr := by omega
  rw [due_named name, restored, if_neg fun both => other both.1, found]
  simp only [Option.bind_some, place.typeId, place.typeNum, place.virtualAddr, narrow, undone]
  rw [if_neg (Int.not_lt.mpr low), whole, u64_eq (by omega) (by omega)]
  rfl

theorem restored_unnamed (name : named tree version addr = none) :
    restored back block info (due target tree version addr) = some 0 := by
  rw [due_unnamed name, restored, if_pos ⟨rfl, rfl⟩]

end

end MoonInWater.Sync.PointTable
