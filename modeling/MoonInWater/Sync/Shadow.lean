import MoonInWater.Sync.BlockLookup

/-! The blocks that a thread has of its own over those of a version: shadow_runtime, which finds
the data of an address and copies a block before it is written to, shadow_new and shadow_del. -/
namespace MoonInWater.Sync.Shadow
open CInt Pairs Avl Fuel PointTable Floor
variable {P : Type}

/-- mem_block_s with the address of its data. -/
structure ShadowBlock extends MemBlock where
  data : Nat
deriving DecidableEq

def sizeofMemBlock : Nat := 96

/-- thread_private_s, with the blocks that lie at addresses. -/
structure ThreadPrivate (P : Type) where
  version : VersionInfo Nat
  avl : PairTree P Nat
  block : Nat → ShadowBlock

inductive Opt where
  | r
  | w
  | c
deriving DecidableEq

/-- What comes of the look-ups of shadow_runtime: a pointer to return, or a block to copy. -/
inductive Found where
  | ret (p : Nat)
  | copy (pBlock offset : Nat)

/-- The offset of an address in a block that lies at `virtualAddr` for its users. -/
def offsetIn (virtualAddr : Nat) (dataLen : Int) (pData : Nat) : Option Nat :=
  if (pData : Int) < u64 (virtualAddr + dataLen) then
    some (u64 ((pData : Int) - virtualAddr)).toNat
  else none

section calls
variable [DecidableEq P] (fuel : Nat)

/-- shadow_runtime from its call of search_addr_id on. -/
def versionLookup (opt : Opt) (pData : Nat) (t : ThreadPrivate P) : Option Found :=
  (searchAddrId fuel t.version.orderAddr pData t.version.orderAddr.length).map fun curPair =>
    match curPair with
    | none => .ret pData
    | some curPair =>
      match offsetIn curPair.id (t.block curPair.addr).dataLen pData with
      | none => .ret pData
      | some offset =>
        match opt with
        | .w => .copy curPair.addr offset
        | .r | .c => .ret ((t.block curPair.addr).data + offset)

/-- shadow_runtime up to its copy of a block; none when it reads through NULL. -/
def shadowLookup (opt : Opt) (pData : Nat) (t : ThreadPrivate P) : Option Found :=
  (avlSearch fuel pData t.avl).bind fun curPair =>
    match curPair with
    | none => versionLookup fuel opt pData t
    | some p =>
      (t.avl.pair p).addr.bind fun pBlock =>
        match offsetIn (t.avl.key p) (t.block pBlock).dataLen pData with
        | some offset => some (.ret ((t.block pBlock).data + offset))
        | none => versionLookup fuel opt pData t

/-- A block is stored for the pair of `p`. -/
def ThreadPrivate.put (t : ThreadPrivate P) (p : P) (pBlock : Nat) : ThreadPrivate P :=
  { t with avl := t.avl.setPair p { t.avl.pair p with addr := some pBlock } }

/-- shadow_runtime from the copy on: `node` and `copyBlock` are what calloc and malloc return. A
pair that avl_add has freed is read, and written, as it was left. -/
def shadowAdd (node : Option P) (copyBlock : Option Nat) (pData pBlock offset : Nat)
    (t : ThreadPrivate P) : Option (ThreadPrivate P × Nat) :=
  match copyBlock with
  | none => some (t, pData)
  | some copyBlock =>
    -- both ways of the copy leave the fields of the block with the data behind them
    let copy := { t.block pBlock with data := copyBlock + sizeofMemBlock }
    let t := { t with block := Function.update t.block copyBlock copy }
    (avlAdd fuel node copy.virtualAddr t.avl).map fun added =>
      let t := { t with avl := added.1 }
      match added.2 with
      | none => (t, pData)
      | some curPair =>
        match (t.avl.pair curPair).addr with
        | some other => (t, (t.block other).data + offset)
        | none => (t.put curPair copyBlock, copy.data + offset)

/-- shadow_runtime from what its look-ups have found. -/
def shadowReturn (node : Option P) (copyBlock : Option Nat) (pData : Nat) (t : ThreadPrivate P) :
    Found → Option (ThreadPrivate P × Nat)
  | .ret p => some (t, p)
  | .copy pBlock offset => shadowAdd fuel node copyBlock pData pBlock offset t

/-- shadow_runtime, called with a type. -/
def shadowRuntime (opt : Opt) (pData : Nat) (node : Option P) (copyBlock : Option Nat)
    (t : ThreadPrivate P) : Option (ThreadPrivate P × Nat) :=
  if pData = 0 then some (t, pData)
  else
    (shadowLookup fuel opt pData t).bind fun found =>
      shadowReturn fuel node copyBlock pData t found

/-- shadow_new; find_type gives `typeIndex`, and calloc `node` and `pBlock`. -/
def shadowNew (typeIndex num size : Int) (node : Option P) (pBlock : Nat) (t : ThreadPrivate P) :
    Option (ThreadPrivate P × Nat) :=
  if num ≤ 0 ∨ size ≤ 0 ∨ typeIndex ≤ 0 then some (t, 0)
  else
    let block : ShadowBlock :=
      { id := 0, tmpId := 0, virtualAddr := pBlock + sizeofMemBlock, isDel := 0,
        typeId := typeIndex, typeNum := num, dataLen := size, data := pBlock + sizeofMemBlock }
    let t := { t with block := Function.update t.block pBlock block }
    (avlAdd fuel node block.virtualAddr t.avl).map fun added =>
      let t := { t with avl := added.1 }
      match added.2 with
      | none => (t, 0)
      | some pair => (t.put pair pBlock, block.data)

/-- shadow_del from its call of search_addr_id on. -/
def versionDel (addr : Nat) (node : Option P) (pBlock : Option Nat) (t : ThreadPrivate P) :
    Option (ThreadPrivate P) :=
  (searchAddrId fuel t.version.orderAddr addr t.version.orderAddr.length).bind fun pPair =>
    match pPair.filter fun pair => pair.id = addr, pBlock with
    | some pair, some pBlock =>
      let block := { t.block pair.addr with isDel := 1 }
      let t := { t with block := Function.update t.block pBlock block }
      (avlAdd fuel node addr t.avl).map fun added =>
        let t := { t with avl := added.1 }
        match added.2 with
        | none => t
        | some p => t.put p pBlock
    | _, _ => some t

/-- shadow_del; `node` and `pBlock` are what calloc and malloc return. -/
def shadowDel (addr : Nat) (node : Option P) (pBlock : Option Nat) (t : ThreadPrivate P) :
    Option (ThreadPrivate P) :=
  if addr = 0 then some t
  else
    (avlSearch fuel addr t.avl).bind fun pPair =>
      match pPair.filter fun p => t.avl.key p = addr with
      | none => versionDel fuel addr node pBlock t
      | some p =>
        (t.avl.pair p).addr.bind fun pBlock =>
          if (t.block pBlock).id = 0 then
            (avlDel fuel addr t.avl).map fun deleted => { t with avl := deleted.1 }
          else
            let block := { t.block pBlock with isDel := 1 }
            some { t with block := Function.update t.block pBlock block }

end calls

section tree
variable {V : Type} {s s' : PairTree P V} {addr : Nat} {p q : P} {v : V}

/-- The node that a search for an address comes to. -/
structure Floors (s : PairTree P V) (addr : Nat) (q : P) : Prop where
  inTree : InTree s.mem q
  under : s.key q ≤ addr
  greatest : ∀ p, InTree s.mem p → s.key p ≤ addr → s.key p ≤ s.key q

theorem key_inj (sound : s.Sound) (first : InTree s.mem p) (second : InTree s.mem q)
    (same : s.key p = s.key q) : p = q := by
  obtain ⟨t, wellFormed⟩ := sound.wellFormed
  have distinct : (t.toList.map s.key).Nodup :=
    List.pairwise_map.mpr (wellFormed.ordered.imp fun less => Nat.ne_of_lt less)
  exact List.inj_on_of_nodup_map distinct (wellFormed.inTree_iff.mp first)
    (wellFormed.inTree_iff.mp second) same

theorem Floors.unique (sound : s.Sound) (first : Floors s addr p) (second : Floors s addr q) :
    p = q := by
  apply key_inj sound first.inTree second.inTree
  exact Nat.le_antisymm (second.greatest p first.inTree first.under)
    (first.greatest q second.inTree second.under)

variable [DecidableEq P]

theorem Floors.search (sound : s.Sound) (floors : Floors s addr q) :
    Returns (fun fuel => avlSearch fuel addr s) (some q) := by
  obtain ⟨t, wellFormed⟩ := sound.wellFormed
  have found : floor s.key t.toList addr = some q :=
    floor_eq wellFormed.ordered (wellFormed.inTree_iff.mp floors.inTree) floors.under
      fun p member => floors.greatest p (wellFormed.inTree_iff.mpr member)
  refine ⟨t.height, fun fuel enough => ?_⟩
  simp only [avlSearch_eq wellFormed addr enough, found]

/-- A search comes to a node, or all nodes lie above. -/
theorem search_cases (sound : s.Sound) (addr : Nat) :
    (∃ q, Floors s addr q) ∨ (∀ q, InTree s.mem q → addr < s.key q) ∧
      Returns (fun fuel => avlSearch fuel addr s) none := by
  obtain ⟨t, wellFormed⟩ := sound.wellFormed
  cases found : floor s.key t.toList addr with
  | some q =>
    obtain ⟨member, under⟩ := floor_some found
    refine .inl ⟨q, wellFormed.inTree_iff.mpr member, under, ?_⟩
    intro p inTree low
    exact floor_greatest wellFormed.ordered found p (wellFormed.inTree_iff.mp inTree) low
  | none =>
    refine .inr ⟨fun q inTree => floor_none.mp found q (wellFormed.inTree_iff.mp inTree),
      t.height, fun fuel enough => ?_⟩
    simp only [avlSearch_eq wellFormed addr enough, found]

/-- A tree with one more node. -/
structure Linked (s s' : PairTree P V) (p : P) (addr : Nat) (v : V) : Prop where
  sound : s'.Sound
  members : ∀ q, InTree s'.mem q ↔ q = p ∨ InTree s.mem q
  new : s'.pair p = ⟨addr, some v⟩
  others : ∀ q, InTree s.mem q → s'.pair q = s.pair q

/-- A tree with the same nodes, or fewer. -/
structure Shrunk (s s' : PairTree P V) : Prop where
  sound : s'.Sound
  members : ∀ q, InTree s'.mem q → InTree s.mem q
  pairs : ∀ q, InTree s.mem q → s'.pair q = s.pair q

theorem setPair_sound (sound : s.Sound) (p : P) (v : V) :
    (s.setPair p { s.pair p with addr := some v }).Sound :=
  call_sound (.store p (some v)) sound

/-- The pair of a new address is in the tree once something is stored for it. -/
theorem avlAdd_linked (sound : s.Sound) (free : s.live p = false)
    (absent : ∀ q, InTree s.mem q → s.key q ≠ addr) :
    ∃ s', Returns (fun fuel => avlAdd fuel (some p) addr s) (s', some p) ∧
      s'.pair p = ⟨addr, none⟩ ∧
      ∀ v, Linked s (s'.setPair p { s'.pair p with addr := some v }) p addr v := by
  rcases avlAdd_spec sound free addr with
    ⟨mem, t, l, r, run, wellFormed, sequence, members, _⟩ | ⟨q, inTree, same, _⟩
  · have fresh := sound.fresh free
    have sound' := avlAdd_keeps sound (some p) (by rintro _ ⟨⟩; exact free) run
    have pair : (s.entering p addr).pair p = ⟨addr, none⟩ := by
      simp [PairTree.entering, PairTree.calloc, PairTree.setPair]
    refine ⟨_, run, pair, fun v => ?_⟩
    constructor
    · exact setPair_sound sound' p v
    · intro q
      refine wellFormed.inTree_iff.trans ?_
      rw [sequence, members]
      simp only [List.mem_append, List.mem_cons]
      tauto
    · simp [PairTree.setPair, pair]
    · intro q inTree
      have apart : q ≠ p := fun same => fresh (same ▸ inTree)
      simp only [PairTree.setPair, Function.update_of_ne apart]
      exact entering_pair apart
  · exact absurd same (absent q inTree)

/-- The pair that is made for an address that a node has is not in the tree. -/
theorem avlAdd_dropped (sound : s.Sound) (free : s.live p = false) (inTree : InTree s.mem q)
    (same : s.key q = addr) :
    ∃ s', Returns (fun fuel => avlAdd fuel (some p) addr s) (s', some p) ∧
      s'.pair p = ⟨addr, none⟩ ∧
      ∀ v, Shrunk s (s'.setPair p { s'.pair p with addr := some v }) ∧
        ∀ x, InTree s.mem x → InTree (s'.setPair p { s'.pair p with addr := some v }).mem x := by
  rcases avlAdd_spec sound free addr with
    ⟨mem, t, l, r, _, _, _, _, absent⟩ | ⟨q', inTree', _, run⟩
  · exact absurd same (absent q inTree)
  · have fresh := sound.fresh free
    have sound' := avlAdd_keeps sound (some p) (by rintro _ ⟨⟩; exact free) run
    obtain ⟨t, wellFormed⟩ := sound.wellFormed
    have beside : WellFormed (s.entering p addr).key (s.entering p addr).mem t :=
      wellFormed.entering fresh
    have members : ∀ x, InTree (s.entering p addr).mem x ↔ InTree s.mem x := fun x => by
      rw [beside.inTree_iff, wellFormed.inTree_iff]
    have pair : (s.entering p addr).pair p = ⟨addr, none⟩ := by
      simp [PairTree.entering, PairTree.calloc, PairTree.setPair]
    refine ⟨_, run, pair, fun v => ⟨⟨setPair_sound sound' p v, ?_, ?_⟩, ?_⟩⟩
    · intro x member
      exact (members x).mp member
    · intro x member
      have apart : x ≠ p := fun same => fresh (same ▸ member)
      simp only [PairTree.setPair, Function.update_of_ne apart]
      exact entering_pair apart
    · intro x member
      exact (members x).mpr member

/-- A tree in which a value may be stored for a new pair. -/
structure Stored (s s' : PairTree P V) (p : P) (addr : Nat) (v : V) : Prop where
  sound : s'.Sound
  members : ∀ q, InTree s'.mem q → s'.pair q = ⟨addr, some v⟩ ∨
    InTree s.mem q ∧ s'.pair q = s.pair q

omit [DecidableEq P] in
theorem Linked.stored (linked : Linked s s' p addr v) : Stored s s' p addr v := by
  refine ⟨linked.sound, fun q member => ?_⟩
  rcases (linked.members q).mp member with rfl | old
  · exact .inl linked.new
  · exact .inr ⟨old, linked.others q old⟩

omit [DecidableEq P] in
theorem Shrunk.stored (shrunk : Shrunk s s') : Stored s s' p addr v := by
  refine ⟨shrunk.sound, fun q member => .inr ?_⟩
  have old := shrunk.members q member
  exact ⟨old, shrunk.pairs q old⟩

theorem avlAdd_stored (sound : s.Sound) (free : s.live p = false) (addr : Nat) :
    ∃ s', Returns (fun fuel => avlAdd fuel (some p) addr s) (s', some p) ∧
      s'.pair p = ⟨addr, none⟩ ∧
      ∀ v, Stored s (s'.setPair p { s'.pair p with addr := some v }) p addr v := by
  by_cases present : ∃ q, InTree s.mem q ∧ s.key q = addr
  · obtain ⟨q, inTree, same⟩ := present
    obtain ⟨s', run, pair, kept⟩ := avlAdd_dropped sound free inTree same
    exact ⟨s', run, pair, fun v => (kept v).1.stored⟩
  · have absent : ∀ q, InTree s.mem q → s.key q ≠ addr :=
      fun q inTree same => present ⟨q, inTree, same⟩
    obtain ⟨s', run, pair, linked⟩ := avlAdd_linked sound free absent
    exact ⟨s', run, pair, fun v => (linked v).stored⟩

theorem avlDel_shrunk (sound : s.Sound) (addr : Nat) :
    ∃ s' ret, Returns (fun fuel => avlDel fuel addr s) (s', ret) ∧ Shrunk s s' := by
  obtain ⟨s', ret, run, sound', pairs, members⟩ := avlDel_spec sound addr
  exact ⟨s', ret, run, sound', members, fun q _ => congrFun pairs q⟩

end tree

/-- The addresses that a block has for its users. -/
def Covers (virtualAddr : Nat) (dataLen : Int) (addr : Nat) : Prop :=
  virtualAddr ≤ addr ∧ (addr : Int) < virtualAddr + dataLen

def Fits (virtualAddr : Nat) (dataLen : Int) : Prop :=
  0 ≤ dataLen ∧ (virtualAddr : Int) + dataLen < 2 ^ 64

/-- The version's array is in the order of addresses, and its blocks do not overlap. -/
structure Placed (version : VersionInfo Nat) (block : Nat → ShadowBlock) : Prop where
  ascending : version.orderAddr.Pairwise (·.id < ·.id)
  addrs : ∀ x ∈ version.orderAddr, (block x.addr).virtualAddr = x.id
  apart : ∀ x ∈ version.orderAddr, ∀ y ∈ version.orderAddr, x.id < y.id →
    (x.id : Int) + (block x.addr).dataLen ≤ y.id
  fits : ∀ x ∈ version.orderAddr, 0 < x.id ∧ Fits x.id (block x.addr).dataLen

section lookups
variable {t : ThreadPrivate P} {virtualAddr pData pBlock offset : Nat} {dataLen : Int} {opt : Opt}
variable {x : Pairs.AddrPair Nat} {q : P} {found : Found}

theorem offsetIn_inside (fits : Fits virtualAddr dataLen)
    (inside : Covers virtualAddr dataLen pData) :
    offsetIn virtualAddr dataLen pData = some (pData - virtualAddr) := by
  obtain ⟨low, high⟩ := fits
  obtain ⟨under, before⟩ := inside
  have sum : u64 ((virtualAddr : Int) + dataLen) = virtualAddr + dataLen := u64_eq (by omega) high
  have difference : u64 ((pData : Int) - virtualAddr) = pData - virtualAddr :=
    u64_eq (by omega) (by omega)
  rw [offsetIn, sum, if_pos before, difference]
  congr 1
  omega

theorem offsetIn_behind (fits : Fits virtualAddr dataLen)
    (behind : (virtualAddr : Int) + dataLen ≤ pData) :
    offsetIn virtualAddr dataLen pData = none := by
  obtain ⟨low, high⟩ := fits
  have sum : u64 ((virtualAddr : Int) + dataLen) = virtualAddr + dataLen := u64_eq (by omega) high
  rw [offsetIn, sum, if_neg (by omega)]

/-- An address with an offset in a block from below it lies inside the block. -/
theorem covers_of_offsetIn (fits : Fits virtualAddr dataLen) (under : virtualAddr ≤ pData)
    (found : offsetIn virtualAddr dataLen pData = some offset) :
    Covers virtualAddr dataLen pData ∧ offset = pData - virtualAddr := by
  by_cases inside : (pData : Int) < virtualAddr + dataLen
  · rw [offsetIn_inside fits ⟨under, inside⟩] at found
    exact ⟨⟨under, inside⟩, (Option.some.inj found).symm⟩
  · rw [offsetIn_behind fits (by omega)] at found
    contradiction

theorem Placed.search (placed : Placed t.version t.block) (member : x ∈ t.version.orderAddr)
    (inside : Covers x.id (t.block x.addr).dataLen pData) :
    Returns (fun fuel => searchAddrId fuel t.version.orderAddr pData t.version.orderAddr.length)
      (some x) := by
  have found : floor Pairs.AddrPair.id t.version.orderAddr pData = some x := by
    apply floor_eq placed.ascending member inside.1
    intro y member' under
    by_contra above
    have behind := placed.apart x member y member' (Nat.lt_of_not_le above)
    have before := inside.2
    omega
  refine ⟨t.version.orderAddr.length, fun fuel enough => ?_⟩
  simp only [searchAddrId_eq placed.ascending pData enough, found]

/-- What versionLookup finds for an address inside a block of the version. -/
def foundInside (opt : Opt) (t : ThreadPrivate P) (x : Pairs.AddrPair Nat) (pData : Nat) : Found :=
  match opt with
  | .w => .copy x.addr (pData - x.id)
  | .r | .c => .ret ((t.block x.addr).data + (pData - x.id))

theorem versionLookup_inside (placed : Placed t.version t.block)
    (member : x ∈ t.version.orderAddr) (inside : Covers x.id (t.block x.addr).dataLen pData)
    (opt : Opt) :
    Returns (fun fuel => versionLookup fuel opt pData t) (foundInside opt t x pData) := by
  refine (placed.search member inside).imp fun fuel searched => ?_
  rw [versionLookup, searched, Option.map_some]
  simp only [offsetIn_inside (placed.fits x member).2 inside]
  cases opt <;> rfl

/-- Where no block covers an address, it is returned as it is. -/
theorem versionLookup_outside (placed : Placed t.version t.block)
    (outside : ∀ x ∈ t.version.orderAddr, ¬ Covers x.id (t.block x.addr).dataLen pData)
    (opt : Opt) : Returns (fun fuel => versionLookup fuel opt pData t) (.ret pData) := by
  refine ⟨t.version.orderAddr.length, fun fuel enough => ?_⟩
  simp only [versionLookup, searchAddrId_eq placed.ascending pData enough, Option.map_some]
  cases found : floor Pairs.AddrPair.id t.version.orderAddr pData with
  | none => rfl
  | some x =>
    obtain ⟨member, under⟩ := floor_some found
    have behind : (x.id : Int) + (t.block x.addr).dataLen ≤ pData := by
      by_contra before
      exact outside x member ⟨under, by omega⟩
    simp only [offsetIn_behind (placed.fits x member).2 behind]

theorem versionLookup_returns (placed : Placed t.version t.block) (opt : Opt) (pData : Nat) :
    ∃ found, Returns (fun fuel => versionLookup fuel opt pData t) found ∧
      (found = .ret pData ∧
          (∀ x ∈ t.version.orderAddr, ¬ Covers x.id (t.block x.addr).dataLen pData) ∨
        ∃ x ∈ t.version.orderAddr, Covers x.id (t.block x.addr).dataLen pData ∧
          found = foundInside opt t x pData) := by
  by_cases inside : ∃ x ∈ t.version.orderAddr, Covers x.id (t.block x.addr).dataLen pData
  · obtain ⟨x, member, inside⟩ := inside
    exact ⟨_, versionLookup_inside placed member inside opt, .inr ⟨x, member, inside, rfl⟩⟩
  · have outside : ∀ x ∈ t.version.orderAddr, ¬ Covers x.id (t.block x.addr).dataLen pData :=
      fun x member covers => inside ⟨x, member, covers⟩
    exact ⟨_, versionLookup_outside placed outside opt, .inl ⟨rfl, outside⟩⟩

variable [DecidableEq P]

theorem shadowLookup_hit (sound : t.avl.Sound) (floors : Floors t.avl pData q)
    (stored : (t.avl.pair q).addr = some pBlock)
    (inside : offsetIn (t.avl.key q) (t.block pBlock).dataLen pData = some offset) (opt : Opt) :
    Returns (fun fuel => shadowLookup fuel opt pData t)
      (.ret ((t.block pBlock).data + offset)) := by
  refine (floors.search sound).imp fun fuel searched => ?_
  rw [shadowLookup, searched, Option.bind_some]
  simp only [stored, Option.bind_some, inside]

/-- Where the tree has no block for an address, the version is searched. -/
theorem shadowLookup_miss (sound : t.avl.Sound)
    (missed : ∀ q, Floors t.avl pData q → ∃ pBlock, (t.avl.pair q).addr = some pBlock ∧
      offsetIn (t.avl.key q) (t.block pBlock).dataLen pData = none)
    (rest : Returns (fun fuel => versionLookup fuel opt pData t) found) :
    Returns (fun fuel => shadowLookup fuel opt pData t) found := by
  rcases search_cases sound pData with ⟨q, floors⟩ | ⟨_, searched⟩
  · obtain ⟨pBlock, stored, behind⟩ := missed q floors
    refine (floors.search sound).imp₂ rest fun fuel searched looked => ?_
    rw [shadowLookup, searched, Option.bind_some]
    simp only [stored, Option.bind_some, behind, looked]
  · refine searched.imp₂ rest fun fuel searched looked => ?_
    rw [shadowLookup, searched, Option.bind_some]
    exact looked

/-- The blocks once `copyBlock` is a copy of `pBlock`. -/
def ThreadPrivate.copied (t : ThreadPrivate P) (pBlock copyBlock : Nat) : Nat → ShadowBlock :=
  Function.update t.block copyBlock { t.block pBlock with data := copyBlock + sizeofMemBlock }

section adding
variable {node : P} {copyBlock : Nat}

/-- The copy is stored for the block's address when no node has this address. -/
theorem shadowAdd_linked (sound : t.avl.Sound) (free : t.avl.live node = false)
    (absent : ∀ q, InTree t.avl.mem q → t.avl.key q ≠ (t.block pBlock).virtualAddr)
    (copyBlock pData offset : Nat) :
    ∃ avl, Returns
        (fun fuel => shadowAdd fuel (some node) (some copyBlock) pData pBlock offset t)
        (⟨t.version, avl, t.copied pBlock copyBlock⟩, copyBlock + sizeofMemBlock + offset) ∧
      Linked t.avl avl node (t.block pBlock).virtualAddr copyBlock := by
  obtain ⟨s', run, pair, linked⟩ := avlAdd_linked sound free absent
  refine ⟨_, run.imp fun fuel added => ?_, linked copyBlock⟩
  simp only [shadowAdd, added, Option.map_some, pair, ThreadPrivate.put]
  rfl

/-- Where a node has the address, the copy is stored for a pair that has been freed. -/
theorem shadowAdd_dropped (sound : t.avl.Sound) (free : t.avl.live node = false)
    (inTree : InTree t.avl.mem q) (same : t.avl.key q = (t.block pBlock).virtualAddr)
    (copyBlock pData offset : Nat) :
    ∃ avl, Returns
        (fun fuel => shadowAdd fuel (some node) (some copyBlock) pData pBlock offset t)
        (⟨t.version, avl, t.copied pBlock copyBlock⟩, copyBlock + sizeofMemBlock + offset) ∧
      Shrunk t.avl avl ∧ ∀ p, InTree t.avl.mem p → InTree avl.mem p := by
  obtain ⟨s', run, pair, kept⟩ := avlAdd_dropped sound free inTree same
  refine ⟨_, run.imp fun fuel added => ?_, kept copyBlock⟩
  simp only [shadowAdd, added, Option.map_some, pair, ThreadPrivate.put]
  rfl

theorem shadowAdd_stored (sound : t.avl.Sound) (free : t.avl.live node = false)
    (pBlock copyBlock pData offset : Nat) :
    ∃ avl, Returns
        (fun fuel => shadowAdd fuel (some node) (some copyBlock) pData pBlock offset t)
        (⟨t.version, avl, t.copied pBlock copyBlock⟩, copyBlock + sizeofMemBlock + offset) ∧
      Stored t.avl avl node (t.block pBlock).virtualAddr copyBlock := by
  by_cases present : ∃ q, InTree t.avl.mem q ∧ t.avl.key q = (t.block pBlock).virtualAddr
  · obtain ⟨q, inTree, same⟩ := present
    obtain ⟨avl, run, shrunk, _⟩ := shadowAdd_dropped sound free inTree same copyBlock pData offset
    exact ⟨avl, run, shrunk.stored⟩
  · have absent : ∀ q, InTree t.avl.mem q → t.avl.key q ≠ (t.block pBlock).virtualAddr :=
      fun q inTree same => present ⟨q, inTree, same⟩
    obtain ⟨avl, run, linked⟩ := shadowAdd_linked sound free absent copyBlock pData offset
    exact ⟨avl, run, linked.stored⟩

end adding
end lookups

theorem Placed.congr {version : VersionInfo Nat} {block block' : Nat → ShadowBlock}
    (placed : Placed version block)
    (same : ∀ x ∈ version.orderAddr, block' x.addr = block x.addr) : Placed version block' := by
  refine ⟨placed.ascending, fun x member => ?_, fun x member => ?_, fun x member => ?_⟩
  all_goals rw [same x member]
  · exact placed.addrs x member
  · exact placed.apart x member
  · exact placed.fits x member

end MoonInWater.Sync.Shadow
