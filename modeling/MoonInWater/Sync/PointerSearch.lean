import MoonInWater.Sync.NewBlocks
import MoonInWater.Sync.Rebuild
import MoonInWater.Sync.UpdateSpan

/-! The searches for the blocks of pointers: convert_blocks_from_buf makes them in order_id of the
new version, before _create_new_version sorts it. -/
namespace MoonInWater.Sync.PointerSearch
open Pairs Commit
open PointTable (IdOffset)
variable {Q : Type}

/-- A call of search_addr_id in order_id. -/
structure Lookup (Q : Type) where
  array : Order Q
  id : Nat

def search (array : Order Q) (id : Nat) : Option (Pairs.AddrPair (Option (Made Q))) :=
  (searchAddrId (array.length + 1) array id array.length).join

/-- A block in the data section: its entries, and whether get_block_copy succeeds. -/
structure Part where
  entries : List IdOffset
  copied : Bool

section
variable (translates : Option (Made Q) → Nat → Bool) (order : Order Q)

/-- The calls of id_offset_to_points, and whether it succeeds. -/
def pointLookups : List IdOffset → List (Lookup Q) × Bool
  | [] => ([], true)
  | entry :: rest =>
    if entry.id = 0 ∧ entry.offset = 0 then pointLookups rest
    else if (search order entry.id).any fun pair => translates pair.addr entry.offset then
      (⟨order, entry.id⟩ :: (pointLookups rest).1, (pointLookups rest).2)
    else ([⟨order, entry.id⟩], false)

/-- The calls of convert_blocks_from_buf. -/
def lookups : List Part → List (Lookup Q)
  | [] => []
  | part :: rest =>
    let points := pointLookups translates order part.entries
    if points.2 && part.copied then points.1 ++ lookups rest else points.1

end

/-- A call that is made on an array in order, and finds each id that is there. -/
structure Lookup.Sorted (call : Lookup Q) : Prop where
  ascending : call.array.Pairwise (·.id < ·.id)
  resolves : ∀ pair ∈ call.array, pair.id = call.id → search call.array call.id = some pair

/-- No pointer is looked up: up to the first block that is not copied, all are NULL. -/
def NoPointer : List Part → Prop
  | [] => True
  | part :: rest => (∀ entry ∈ part.entries, entry.id = 0 ∧ entry.offset = 0) ∧
      (part.copied = true → NoPointer rest)

section
variable {translates : Option (Made Q) → Nat → Bool} {order : Order Q} {call : Lookup Q}

@[simp] theorem pointLookups_nil : pointLookups translates order [] = ([], true) := rfl

theorem pointLookups_cons (entry : IdOffset) (rest : List IdOffset) :
    pointLookups translates order (entry :: rest) =
      if entry.id = 0 ∧ entry.offset = 0 then pointLookups translates order rest
      else if (search order entry.id).any fun pair => translates pair.addr entry.offset then
        (⟨order, entry.id⟩ :: (pointLookups translates order rest).1,
          (pointLookups translates order rest).2)
      else ([⟨order, entry.id⟩], false) := rfl

@[simp] theorem lookups_nil : lookups translates order [] = [] := rfl

theorem lookups_cons (part : Part) (rest : List Part) :
    lookups translates order (part :: rest) =
      if (pointLookups translates order part.entries).2 && part.copied then
        (pointLookups translates order part.entries).1 ++ lookups translates order rest
      else (pointLookups translates order part.entries).1 := rfl

theorem pointLookups_array (entries : List IdOffset) :
    ∀ call ∈ (pointLookups translates order entries).1, call.array = order := by
  induction entries with
  | nil => simp
  | cons entry rest ih =>
    rw [pointLookups_cons]
    split
    · exact ih
    split
    · simpa using ih
    · simp

theorem lookups_array (parts : List Part) :
    ∀ call ∈ lookups translates order parts, call.array = order := by
  induction parts with
  | nil => simp
  | cons part rest ih =>
    have here : ∀ call ∈ (pointLookups translates order part.entries).1, call.array = order :=
      pointLookups_array part.entries
    rw [lookups_cons]
    split
    · intro call member
      rcases List.mem_append.mp member with first | later
      · exact here call first
      · exact ih call later
    · exact here

theorem pointLookups_none {entries : List IdOffset} :
    (pointLookups translates order entries).1 = [] ↔
      ∀ entry ∈ entries, entry.id = 0 ∧ entry.offset = 0 := by
  induction entries with
  | nil => simp
  | cons entry rest ih =>
    rw [pointLookups_cons]
    split
    next null => simp [ih, null]
    next some' =>
      have called : ¬ ∀ e ∈ entry :: rest, e.id = 0 ∧ e.offset = 0 := fun all =>
        some' (all entry List.mem_cons_self)
      split
      · exact iff_of_false (List.cons_ne_nil _ _) called
      · exact iff_of_false (List.cons_ne_nil _ _) called

/-- Pointers that are all NULL do not stop the conversion. -/
theorem pointLookups_null {entries : List IdOffset}
    (null : ∀ entry ∈ entries, entry.id = 0 ∧ entry.offset = 0) :
    pointLookups translates order entries = ([], true) := by
  induction entries with
  | nil => rfl
  | cons entry rest ih =>
    rw [pointLookups_cons, if_pos (null entry List.mem_cons_self)]
    exact ih fun e member => null e (List.mem_cons_of_mem _ member)

theorem lookups_none {parts : List Part} :
    lookups translates order parts = [] ↔ NoPointer parts := by
  induction parts with
  | nil => simp [NoPointer]
  | cons part rest ih =>
    constructor
    · intro none
      have first : (pointLookups translates order part.entries).1 = [] := by
        rw [lookups_cons] at none
        split at none
        · exact (List.append_eq_nil_iff.mp none).1
        · exact none
      have null := pointLookups_none.mp first
      refine ⟨null, fun copied => ih.mp ?_⟩
      simpa [lookups_cons, pointLookups_null null, copied] using none
    · rintro ⟨null, later⟩
      cases copied : part.copied with
      | false => simp [lookups_cons, pointLookups_null null, copied]
      | true => simp [lookups_cons, pointLookups_null null, copied, ih.mpr (later copied)]

theorem sorted_of_ascending (ascending : call.array.Pairwise (·.id < ·.id)) : call.Sorted where
  ascending := ascending
  resolves pair member same := by
    rw [search, ← same, searchAddrId_exact ascending member (Nat.lt_succ_self _)]
    rfl

/-- Every call is made on an array in order if and only if order_id is, or there is no call. -/
theorem lookups_sorted_iff {parts : List Part} :
    (∀ call ∈ lookups translates order parts, call.Sorted) ↔
      order.Pairwise (·.id < ·.id) ∨ NoPointer parts := by
  constructor
  · intro sorted
    by_cases none : lookups translates order parts = []
    · exact .inr (lookups_none.mp none)
    · obtain ⟨call, member⟩ := List.exists_mem_of_ne_nil _ none
      exact .inl (lookups_array parts call member ▸ (sorted call member).ascending)
  · rintro (ascending | none) call member
    · exact sorted_of_ascending (lookups_array parts call member ▸ ascending)
    · rw [lookups_none.mpr none] at member
      cases member

end

/-- The lists of changes of a packet, as they are decoded. -/
structure Lists where
  dels : List Nat
  writes : List WriteIds
  news : List NewIds

section
variable {P : Type} [DecidableEq P]

def commitLists (sent : Sent P) : Lists := ⟨sent.delIds, sent.writeIds, sent.newIds⟩

omit [DecidableEq P] in
/-- The lists that get_update_packet packs with packet_del_data, packet_write_data_id and
packet_new_data_id. -/
def updateLists (blocks : P → MemBlock) (u : UpdateSpan.Update P) : Lists where
  dels := u.dels.map fun pair => (blocks pair.addr).id
  writes := List.zipWith (fun now prev => ⟨(blocks prev.addr).id, (blocks now.addr).id⟩)
    u.writes u.prevs
  news := u.news.map fun pair =>
    ⟨(blocks pair.addr).typeId, (blocks pair.addr).typeNum, (blocks pair.addr).id⟩

end

/-- The packets of a side that knows the types of the other side: whether they have HAS_NEW_ID,
the ids of the version they start from, and their lists. -/
inductive Produced (types : StructAll) : Bool → List Nat → Lists → Prop where
  | commit {P : Type} [DecidableEq P] {orderId : List (Pairs.AddrPair P)} {tree : List P}
      {blocks : P → MemBlock} {sent : Sent P} (input : Input types orderId tree blocks)
      (made : getCommit types orderId tree blocks = some sent) :
      Produced types false (orderId.map (·.id)) (commitLists sent)
  | update {P : Type} {blocks : P → MemBlock} {origin old new : PointTable.VersionInfo P}
      {u : UpdateSpan.Update P} (first : UpdateSpan.Sound blocks origin)
      (past : Relation.ReflTransGen (UpdateSpan.Committed blocks) origin old)
      (later : Relation.TransGen (UpdateSpan.Committed blocks) old new)
      (made : UpdateSpan.getUpdate blocks types old new = .ok u) :
      Produced types true (old.orderId.map (·.id)) (updateLists blocks u)

/-- The written blocks of an update have ascending ids in the order of their old ones, and at most
one block is new, with an id above them. -/
def InOrder (hasNewId : Bool) (lists : Lists) : Prop :=
  hasNewId = true → lists.news.length ≤ 1 ∧
    (lists.writes.map (·.newId) ++ lists.news.map (·.id)).Pairwise (· < ·)

section
variable {P : Type} {blocks : P → MemBlock} {old new : PointTable.VersionInfo P}
variable {u : UpdateSpan.Update P} {last : Nat}

/-- The ids of the blocks of an update are above those of the older version. -/
theorem update_above (sound : UpdateSpan.Sound blocks old)
    (starts : UpdateSpan.lastId old = some last) (grown : UpdateSpan.Grown blocks old new last)
    (spans : UpdateSpan.Spans blocks old new u) :
    (∀ id ∈ (updateLists blocks u).writes.map (·.newId), last < id) ∧
      ∀ id ∈ (updateLists blocks u).news.map (·.id), last < id := by
  constructor
  · have within : ∀ prev ∈ u.prevs, prev ∈ old.orderId := by
      intro prev member
      rw [spans.prevs] at member
      exact (List.mem_filter.mp member).1
    have pairs := spans.writes
    simp only [updateLists]
    generalize u.writes = writes at pairs
    generalize u.prevs = prevs at pairs within
    induction pairs with
    | nil => simp
    | @cons now prev writes prevs first _ ih =>
      obtain ⟨member, same, differs⟩ := first
      have later := ih fun prev member => within prev (List.mem_cons_of_mem _ member)
      intro id inside
      rcases List.mem_cons.mp inside with rfl | behind
      · obtain ⟨other, there, rfl⟩ := List.mem_map.mp (grown.sound.sorted.1.mem_iff.mp member)
        have known := UpdateSpan.same_id sound starts grown (within prev List.mem_cons_self) there
          same
        have id : (blocks other.addr).id = other.id := grown.sound.ids other there
        change last < (blocks other.addr).id
        change (blocks other.addr).id ≠ prev.id at differs
        omega
      · exact later id behind
  · intro id member
    rw [updateLists, List.map_map] at member
    obtain ⟨pair, inside, rfl⟩ := List.mem_map.mp member
    rw [spans.news, UpdateSpan.news_above grown] at inside
    obtain ⟨above, _⟩ := List.mem_filter.mp inside
    obtain ⟨there, high⟩ := List.mem_filter.mp above
    have same := grown.sound.ids pair there
    change last < (blocks pair.addr).id
    rw [same]
    exact of_decide_eq_true high

end

section
variable {ids : List Nat} {lists : Lists} {types : StructAll} {hasNewId : Bool}

/-- What a packet with ids of its own brings is above the version it starts from. -/
theorem Produced.above (produced : Produced types hasNewId ids lists) (given : hasNewId = true) :
    ∃ last, (∀ id ∈ ids, id ≤ last) ∧
      (∀ id ∈ lists.writes.map (·.newId), last < id) ∧ ∀ id ∈ lists.news.map (·.id), last < id := by
  cases produced with
  | commit input made => cases given
  | @update P blocks origin old new u first past later made =>
    have sound := first.of_history past
    obtain ⟨last, starts⟩ := sound.starts
    have grown := UpdateSpan.Grown.of_history sound starts later.to_reflTransGen
    obtain ⟨_, spans⟩ := UpdateSpan.getUpdate_made sound starts grown made
    refine ⟨last, ?_, update_above sound starts grown spans⟩
    intro id member
    obtain ⟨pair, inside, rfl⟩ := List.mem_map.mp member
    exact UpdateSpan.le_last sound.ascending starts inside

variable {base : List (Pairs.AddrPair Q)}

theorem created_given {ix : Indexes} {news : List NewIds} (given : ix.hasNewId = true)
    (few : news.length ≤ 1) : (createdOf (P := Q) ix news).map (·.id) = news.map (·.id) := by
  cases news with
  | nil => rfl
  | cons first rest =>
    obtain rfl := List.eq_nil_of_length_eq_zero (Nat.le_zero.mp (Nat.le_of_succ_le_succ few))
    simp [createdOf, createdIds, given]

theorem few_created {ix : Indexes} {news : List NewIds} (given : ix.hasNewId = true)
    (ascending : ((createdOf (P := Q) ix news).map (·.id)).Pairwise (· < ·)) :
    news.length ≤ 1 := by
  cases news with
  | nil => exact Nat.zero_le 1
  | cons first rest =>
    cases rest with
    | nil => exact Nat.le_refl 1
    | cons second rest => simp [createdOf, createdIds, given, List.replicate_succ] at ascending

/-- order_id is in order before the sort if and only if the lists are. -/
theorem parts_inOrder_iff (produced : Produced types hasNewId (base.map (·.id)) lists)
    (plan : Plan lists.dels (lists.writes.map (·.id)) base) {start k : Nat}
    (starts : writeIdStart base = some start) :
    ((parts (indexesOf hasNewId start k lists.writes.length) base lists.dels lists.writes
      lists.news).map (·.id)).Pairwise (· < ·) ↔ InOrder hasNewId lists := by
  cases hasNewId with
  | false =>
    have ascending : ((parts (indexesOf false start k lists.writes.length) base lists.dels
        lists.writes lists.news).map (·.id)).Pairwise (· < ·) := parts_ascending plan starts k
    simpa [InOrder] using ascending
  | true =>
    obtain ⟨last, low, writes, news⟩ := produced.above rfl
    have dumps : dumpIds (indexesOf true start k lists.writes.length) 0 lists.writes =
        lists.writes.map (·.newId) := rfl
    rw [parts_ids plan, dumps, List.append_assoc]
    constructor
    · intro ascending _
      obtain ⟨_, brought, _⟩ := List.pairwise_append.mp ascending
      have few := few_created rfl (List.pairwise_append.mp brought).2.1
      rw [created_given rfl few] at brought
      exact ⟨few, brought⟩
    · intro inOrder
      obtain ⟨few, brought⟩ := inOrder rfl
      rw [created_given rfl few]
      refine List.pairwise_append.mpr ⟨?_, brought, ?_⟩
      · exact plan.ascending.sublist (List.filter_sublist.map _)
      · intro id member id' member'
        obtain ⟨pair, kept, rfl⟩ := List.mem_map.mp member
        have under := low pair.id (List.mem_map_of_mem (List.mem_filter.mp kept).1)
        rcases List.mem_append.mp member' with written | created
        · exact Nat.lt_of_le_of_lt under (writes id' written)
        · exact Nat.lt_of_le_of_lt under (news id' created)

/-- Every search for the block of a pointer is made on an array in order if and only if the lists
are in order, or no pointer is looked up. -/
theorem pointers_sorted_iff {all : StructAll} {made : Order Q × Nat}
    (produced : Produced types hasNewId (base.map (·.id)) lists)
    (ascending : base.Pairwise (·.id < ·.id))
    (ran : createOrder all base hasNewId lists.dels lists.writes lists.news = .ok made)
    (translates : Option (Made Q) → Nat → Bool) (blocks : List Part) :
    (∀ call ∈ lookups translates made.1 blocks, call.Sorted) ↔
      InOrder hasNewId lists ∨ NoPointer blocks := by
  obtain ⟨plan, start, starts, rfl⟩ := createOrder_parts ran (List.pairwise_map.mpr ascending)
  rw [lookups_sorted_iff, ← parts_inOrder_iff produced plan starts, List.pairwise_map]

end
/-- Blocks at two addresses; the pointers are the ids. -/
def twoBlocks (p : Nat) : MemBlock := ⟨p, 0, if p = 1 ∨ p = 4 then 100 else 200, false, 0, 1⟩

def fourBytes : StructAll := ⟨fun _ => 4, fun _ => 0⟩

def firstVersion : PointTable.VersionInfo Nat := ⟨[⟨100, 1⟩, ⟨200, 2⟩], [⟨1, 1⟩, ⟨2, 2⟩]⟩

/-- The second block is written. -/
def secondVersion : PointTable.VersionInfo Nat := ⟨[⟨100, 1⟩, ⟨200, 3⟩], [⟨1, 1⟩, ⟨3, 3⟩]⟩

/-- After the second block the first one is written. -/
def thirdVersion : PointTable.VersionInfo Nat := ⟨[⟨100, 4⟩, ⟨200, 3⟩], [⟨3, 3⟩, ⟨4, 4⟩]⟩

theorem firstVersion_sound : UpdateSpan.Sound twoBlocks firstVersion :=
  ⟨by decide, by decide, by decide, by decide⟩

theorem second_committed : UpdateSpan.Committed twoBlocks firstVersion secondVersion :=
  ⟨2, [⟨1, 1⟩], [⟨3, 3⟩], [], by decide, by decide, by decide, by decide, by decide,
    by decide, by decide, by decide, by decide, by decide⟩

theorem third_committed : UpdateSpan.Committed twoBlocks secondVersion thirdVersion :=
  ⟨3, [⟨3, 3⟩], [⟨4, 4⟩], [], by decide, by decide, by decide, by decide, by decide,
    by decide, by decide, by decide, by decide, by decide⟩

/-- The pointers of an update over one commit are looked up on an array in order. -/
theorem pointers_sorted_one :
    InOrder true ⟨[], [⟨2, 3⟩], []⟩ ∧
      ∀ call ∈ lookups (fun _ _ => true) [⟨1, some (.kept (0 : Nat))⟩, ⟨3, some (.dump 1)⟩]
        [⟨[⟨1, 0⟩, ⟨3, 0⟩], true⟩], call.Sorted := by
  have made : UpdateSpan.getUpdate twoBlocks fourBytes firstVersion secondVersion =
      .ok ⟨⟨0, 1, 0, 4, 0⟩, [], [⟨200, 3⟩], [⟨2, 2⟩], [], 0⟩ := rfl
  have produced : Produced fourBytes true [1, 2] ⟨[], [⟨2, 3⟩], []⟩ :=
    Produced.update firstVersion_sound .refl (.single second_committed) made
  have ran : createOrder fourBytes [⟨1, (0 : Nat)⟩, ⟨2, 1⟩] true [] [⟨2, 3⟩] [] =
      .ok ([⟨1, some (.kept 0)⟩, ⟨3, some (.dump 1)⟩], 2) := rfl
  have inOrder : InOrder true ⟨[], [⟨2, 3⟩], []⟩ := fun _ => by simp
  exact ⟨inOrder, (pointers_sorted_iff produced (by simp) ran _ _).mpr (.inl inOrder)⟩

/-- Over both commits the written blocks are stored in the order of their old ids, under the ids 4
and 3, and a pointer to the one with the id 3 is not resolved. -/
theorem pointers_unsorted :
    Produced fourBytes true [1, 2] ⟨[], [⟨1, 4⟩, ⟨2, 3⟩], []⟩ ∧
      createOrder fourBytes [⟨1, (0 : Nat)⟩, ⟨2, 1⟩] true [] [⟨1, 4⟩, ⟨2, 3⟩] [] =
        .ok ([⟨4, some (.dump 0)⟩, ⟨3, some (.dump 1)⟩], 2) ∧
      ⟨[⟨4, some (.dump (0 : Nat))⟩, ⟨3, some (.dump 1)⟩], 3⟩ ∈
        lookups (fun _ _ => true) [⟨4, some (.dump 0)⟩, ⟨3, some (.dump 1)⟩]
          [⟨[⟨3, 0⟩], true⟩] ∧
      ¬ Lookup.Sorted ⟨[⟨4, some (.dump (0 : Nat))⟩, ⟨3, some (.dump 1)⟩], 3⟩ ∧
      search [⟨4, some (.dump (0 : Nat))⟩, ⟨3, some (.dump 1)⟩] 3 = none := by
  have made : UpdateSpan.getUpdate twoBlocks fourBytes firstVersion thirdVersion =
      .ok ⟨⟨0, 2, 0, 8, 0⟩, [], [⟨100, 4⟩, ⟨200, 3⟩], [⟨1, 1⟩, ⟨2, 2⟩], [], 0⟩ := rfl
  have produced : Produced fourBytes true [1, 2] ⟨[], [⟨1, 4⟩, ⟨2, 3⟩], []⟩ :=
    Produced.update firstVersion_sound .refl
      (.tail (.single second_committed) third_committed) made
  refine ⟨produced, rfl, ?_, ?_, rfl⟩
  · have unresolved : search [⟨4, some (.dump (0 : Nat))⟩, ⟨3, some (.dump 1)⟩] 3 = none := rfl
    simp [lookups, pointLookups, unresolved]
  · intro sorted
    exact absurd sorted.ascending (by decide)

end MoonInWater.Sync.PointerSearch
