import MoonInWater.Lib.Floor
import MoonInWater.Sync.PointTable

/-! The blocks of a private tree and of a version by their addresses, and what points_to_id_offset
makes of a pointer by the blocks that its two searches come to. -/
namespace MoonInWater.Sync.PointTable
open CInt Pairs Avl Floor Fuel

/-- The block of the greatest address up to `addr`, of blocks in the order of their addresses. -/
abbrev below (blocks : List MemBlock) (addr : Nat) : Option MemBlock :=
  floor MemBlock.virtualAddr blocks addr

def Inside (addr : Nat) (b : MemBlock) : Prop :=
  b.virtualAddr ≤ addr ∧ (addr : Int) < b.virtualAddr + b.dataLen

instance (addr : Nat) (b : MemBlock) : Decidable (Inside addr b) :=
  inferInstanceAs (Decidable (_ ∧ _))

def blockAt (blocks : List MemBlock) (addr : Nat) : Option MemBlock :=
  blocks.find? fun b => Inside addr b

/-- Blocks that do not overlap, in the order of their addresses; data_len is an int. -/
structure Apart (blocks : List MemBlock) : Prop where
  order : blocks.Pairwise fun b c => b.virtualAddr < c.virtualAddr
  apart : blocks.Pairwise fun b c => (b.virtualAddr : Int) + b.dataLen ≤ c.virtualAddr
  len : ∀ b ∈ blocks, b.dataLen < 2 ^ 31

/-- The block that a search comes to, with the offset of a pointer that passes for one into it. -/
def hit (blocks : List MemBlock) (addr : Nat) : Option (MemBlock × Int) :=
  (below blocks addr).bind fun b =>
    (getVirtualAddressInfo b addr).map fun offset => (b, offset)

section
variable (target : GetTargetOffset)

/-- What is written for a pointer by the block of the version below it. -/
def versionWrites (version : List MemBlock) (addr : Nat) : Option (List IdOffset × Int) :=
  (below version addr).map fun b =>
    match getVirtualAddressInfo b addr with
    | some offset => blockEntry target b b.id offset
    | none => ([⟨0, 0⟩], 0)

/-- What is written for a pointer by the blocks below it. -/
def pointWrites (tree version : List MemBlock) (addr : Nat) : Option (List IdOffset × Int) :=
  if addr = 0 then some ([⟨0, 0⟩], 0)
  else
    match hit tree addr with
    | none => versionWrites target version addr
    | some (b, offset) =>
      let entry := blockEntry target b b.tmpId offset
      some (if 0 < b.isDel then (⟨0, 0⟩ :: entry.1, entry.2) else entry)

end

variable {P B : Type}

/-- The blocks of a private tree, in the order of their addresses. -/
structure TreeBlocks (block : B → MemBlock) (tree : PairTree P B) (t : AvlTree.NodeTree P)
    (blocks : List MemBlock) : Prop where
  wellFormed : WellFormed tree.key tree.mem t
  blocks : blocks = t.toList.filterMap fun p => (tree.pair p).addr.map block
  filled : ∀ p ∈ t.toList, ∃ b, (tree.pair p).addr = some b ∧ (block b).virtualAddr = tree.key p

/-- The blocks of a version, in the order of their addresses. -/
structure VersionBlocks (block : B → MemBlock) (version : VersionInfo B)
    (blocks : List MemBlock) : Prop where
  blocks : blocks = version.orderAddr.map fun pair => block pair.addr
  addrs : ∀ pair ∈ version.orderAddr, pair.id = (block pair.addr).virtualAddr

section
variable {A : Type} {a : List (Pairs.AddrPair A)} {id addr fuel : Nat}
variable {block : B → MemBlock} {tree : PairTree P B} {t : AvlTree.NodeTree P}
variable {version : VersionInfo B} {blocks : List MemBlock}

/-- search_addr_id is a search for the greatest id that is not above. -/
theorem searchAddrId_eq (ascending : a.Pairwise (·.id < ·.id)) (id : Nat)
    (enough : a.length < fuel) :
    searchAddrId fuel a id a.length = some (floor Pairs.AddrPair.id a id) := by
  rcases searchAddrId_floor ascending id enough with ⟨x, found, member, under, greatest⟩ | none'
  · rw [found, floor_eq ascending member under greatest]
  · rw [none'.1, floor_none.mpr none'.2]

/-- avl_search is a search for the greatest address that is not above. -/
theorem avlSearch_eq [DecidableEq P] (wellFormed : WellFormed tree.key tree.mem t) (addr : Nat)
    (enough : t.height < fuel) :
    avlSearch fuel addr tree = some (floor tree.key t.toList addr) := by
  have compares := tree.compares addr
  have run := avlSearch2_spec [] wellFormed.represents (compares.splits wellFormed.ordered) none
    fuel enough
  rw [Option.or_none, ← wellFormed.root] at run
  rw [avlSearch, run, floor]
  simp only [compares.notAbove]

theorem below_tree (holds : TreeBlocks block tree t blocks) (addr : Nat) :
    below blocks addr =
      (floor tree.key t.toList addr).bind fun p => (tree.pair p).addr.map block := by
  rw [holds.blocks]
  apply floor_filterMap
  intro p member
  obtain ⟨b, here, same⟩ := holds.filled p member
  exact ⟨block b, by rw [here]; rfl, same⟩

theorem below_version (holds : VersionBlocks block version blocks) (addr : Nat) :
    below blocks addr =
      (floor Pairs.AddrPair.id version.orderAddr addr).map fun pair => block pair.addr := by
  rw [holds.blocks]
  exact floor_map fun pair member => (holds.addrs pair member).symm

theorem ascending_version (holds : VersionBlocks block version blocks) (apart : Apart blocks) :
    version.orderAddr.Pairwise (·.id < ·.id) := by
  have order := apart.order
  rw [holds.blocks, List.pairwise_map] at order
  apply order.imp_of_mem
  intro x y member member' less
  rw [holds.addrs x member, holds.addrs y member']
  exact less

theorem versionEntry_writes (target : GetTargetOffset) (holds : VersionBlocks block version blocks)
    (apart : Apart blocks) (addr : Nat) (enough : version.orderAddr.length < fuel) :
    versionEntry fuel target block version addr = versionWrites target blocks addr := by
  rw [versionEntry, searchAddrId_eq (ascending_version holds apart) addr enough, Option.bind_some,
    versionWrites, below_version holds, Option.map_map]
  rfl

theorem pointEntry_writes [DecidableEq P] (target : GetTargetOffset) {blocks' : List MemBlock}
    (ours : TreeBlocks block tree t blocks) (theirs : VersionBlocks block version blocks')
    (apart : Apart blocks') (addr : Nat) (enough : t.height < fuel)
    (enough' : version.orderAddr.length < fuel) :
    pointEntry fuel target block tree version addr = pointWrites target blocks blocks' addr := by
  rw [pointEntry, pointWrites, avlSearch_eq ours.wellFormed addr enough, Option.bind_some, hit,
    below_tree ours]
  split
  · rfl
  · cases found : floor tree.key t.toList addr with
    | none => exact versionEntry_writes target theirs apart addr enough'
    | some p =>
      obtain ⟨b, here, same⟩ := ours.filled p (floor_some found).1
      simp only [Option.bind_some, here, Option.map_some]
      cases getVirtualAddressInfo (block b) addr with
      | none => exact versionEntry_writes target theirs apart addr enough'
      | some offset => rfl

end

end MoonInWater.Sync.PointTable
