import MoonInWater.Lib.Pointwise
import MoonInWater.Sync.PointerSearch

/-! What a client makes of an update: get_update_packet lists the changes between two versions of
the server, and _create_new_version makes a version of them on the client. -/
namespace MoonInWater.Sync.Replica
open Pairs Commit UpdateSpan PointerSearch
open PointTable (VersionInfo)
variable {P Q : Type}

/-- What a client takes for a block of the server: its own block with that id, a dump of its block
for the old block at that address, or a new one of the type. -/
inductive Copies (blocks : P → MemBlock) (old : VersionInfo P) (client : List (AddrPair Q)) :
    AddrPair (Option (Made Q)) → AddrPair P → Prop where
  | kept {pair : AddrPair P} {q : Q} (member : pair ∈ old.orderId)
      (mine : ⟨pair.id, q⟩ ∈ client) : Copies blocks old client ⟨pair.id, some (.kept q)⟩ pair
  | dump {pair prev : AddrPair P} {q : Q} (member : prev ∈ old.orderId)
      (sameAddr : addrOf blocks prev = addrOf blocks pair) (differs : prev.id ≠ pair.id)
      (mine : ⟨prev.id, q⟩ ∈ client) : Copies blocks old client ⟨pair.id, some (.dump q)⟩ pair
  | created {pair : AddrPair P} (gone : Gone blocks old pair) :
      Copies blocks old client
        ⟨pair.id, some (.created (blocks pair.addr).typeId (blocks pair.addr).typeNum)⟩ pair

section
variable {blocks : P → MemBlock} {old new : VersionInfo P} {client : List (AddrPair Q)}
variable {u : Update P} {last : Nat}

theorem unique_id {v : VersionInfo P} {x y : AddrPair P} (sound : Sound blocks v)
    (member : x ∈ v.orderId) (member' : y ∈ v.orderId) (same : x.id = y.id) : x = y :=
  List.inj_on_of_nodup_map (List.pairwise_map.mpr (sound.ascending.imp Nat.ne_of_lt)) member
    member' same

theorem prevs_within (spans : Spans blocks old new u) {prev : AddrPair P}
    (member : prev ∈ u.prevs) : prev ∈ old.orderId ∧ Rewritten blocks new prev := by
  rw [spans.prevs] at member
  obtain ⟨inside, rewritten⟩ := List.mem_filter.mp member
  exact ⟨inside, of_decide_eq_true rewritten⟩

/-- A written block has the id of its old block, and the one of the block that is there now. -/
theorem update_writes (sound : Sound blocks old) (later : Sound blocks new)
    (spans : Spans blocks old new u) :
    List.Forall₂ (fun (w : WriteIds) prev => w.id = prev.id ∧ ∃ now ∈ new.orderId,
      addrOf blocks now = addrOf blocks prev ∧ now.id ≠ prev.id ∧ w.newId = now.id)
      (updateLists blocks u).writes u.prevs := by
  have within : ∀ prev ∈ u.prevs, prev ∈ old.orderId :=
    fun prev member => (prevs_within spans member).1
  have pairs := spans.writes
  simp only [updateLists]
  generalize u.writes = writes, u.prevs = prevs at pairs within ⊢
  induction pairs with
  | nil => exact .nil
  | @cons found prev writes prevs first _ ih =>
    obtain ⟨member, sameAddr, differs⟩ := first
    obtain ⟨now, there, rfl⟩ := List.mem_map.mp (later.sorted.1.mem_iff.mp member)
    have same := later.ids now there
    refine .cons ⟨sound.ids prev (within prev List.mem_cons_self), now, there, sameAddr, ?_, same⟩
      (ih fun prev member => within prev (List.mem_cons_of_mem _ member))
    change (blocks now.addr).id ≠ prev.id at differs
    rwa [same] at differs

/-- The ids of the blocks that the update deletes and writes. -/
theorem update_ids (sound : Sound blocks old) (later : Sound blocks new)
    (spans : Spans blocks old new u) :
    (updateLists blocks u).dels = (old.orderId.filter fun p => Gone blocks new p).map (·.id) ∧
      (updateLists blocks u).writes.map (·.id) =
        (old.orderId.filter fun p => Rewritten blocks new p).map (·.id) := by
  constructor
  · rw [← spans.dels]
    apply List.map_congr_left
    intro pair member
    rw [spans.dels] at member
    exact sound.ids pair (List.mem_filter.mp member).1
  · rw [← spans.prevs]
    exact Pointwise.map_eq (update_writes sound later spans) fun _ _ pair => pair.1

/-- The lists of an update are a plan for every copy of the version it starts from. -/
theorem update_plan (sound : Sound blocks old) (later : Sound blocks new)
    (spans : Spans blocks old new u) (mirror : client.map (·.id) = old.orderId.map (·.id)) :
    Plan (updateLists blocks u).dels ((updateLists blocks u).writes.map (·.id)) client := by
  obtain ⟨dels, writes⟩ := update_ids sound later spans
  have selects (p : AddrPair P → Bool) :
      Selects ((old.orderId.filter p).map (·.id)) (client.map (·.id)) := by
    constructor
    · exact List.pairwise_map.mpr (sound.ascending.filter p)
    · intro id member
      rw [mirror]
      exact (List.filter_sublist.map _).subset member
  rw [writes, dels]
  refine ⟨?_, selects _, selects _, ?_⟩
  · rw [mirror]
    exact List.pairwise_map.mpr sound.ascending
  · intro id gone rewritten
    obtain ⟨pair, member, rfl⟩ := List.mem_map.mp gone
    obtain ⟨other, member', same⟩ := List.mem_map.mp rewritten
    obtain ⟨inside, gone⟩ := List.mem_filter.mp member
    obtain ⟨inside', rewritten⟩ := List.mem_filter.mp member'
    obtain ⟨now, there, sameAddr, _⟩ := of_decide_eq_true rewritten
    obtain rfl := unique_id sound inside' inside same
    exact of_decide_eq_true gone now there sameAddr

section
variable (sound : Sound blocks old) (starts : lastId old = some last)
  (grown : Grown blocks old new last) (spans : Spans blocks old new u)
  (mirror : client.map (·.id) = old.orderId.map (·.id))
include sound starts grown spans mirror

omit starts mirror in
/-- No two written blocks have the same new id. -/
theorem newIds_nodup : ((updateLists blocks u).writes.map (·.newId)).Nodup := by
  refine Pointwise.keys_nodup (update_writes sound grown.sound spans) ?_ ?_
  · rw [spans.prevs]
    exact (List.Nodup.of_map _ sound.distinct).filter _
  · rintro w w' prev member prev' member' ⟨_, now, here, sameAddr, _, newId⟩
      ⟨_, now', here', sameAddr', _, newId'⟩ same
    obtain rfl := unique_id grown.sound here here' (newId.symm.trans (same.trans newId'))
    exact sound.same_block (prevs_within spans member).1 (prevs_within spans member').1
      (sameAddr.symm.trans sameAddr')

omit starts mirror in
/-- A written block and a new one have different ids. -/
theorem newIds_apart {id : Nat} (written : id ∈ (updateLists blocks u).writes.map (·.newId))
    (created : id ∈ (updateLists blocks u).news.map (·.id)) : False := by
  obtain ⟨w, inside, rfl⟩ := List.mem_map.mp written
  obtain ⟨prev, member, _, now, here, sameAddr, _, newId⟩ :=
    Pointwise.partner (update_writes sound grown.sound spans) inside
  rw [updateLists, spans.news, List.map_map] at created
  obtain ⟨pair, fresh, same⟩ := List.mem_map.mp created
  obtain ⟨there, gone⟩ := List.mem_filter.mp fresh
  have own : (blocks pair.addr).id = w.newId := same
  rw [grown.sound.ids pair there, newId] at own
  obtain rfl := unique_id grown.sound there here own
  exact of_decide_eq_true gone prev (prevs_within spans member).1 sameAddr.symm

/-- The client's order of an update with at most one new block has no id twice. -/
theorem update_nodup (few : u.news.length ≤ 1) {ix : Indexes} (given : ix.hasNewId = true) :
    ((parts ix client (updateLists blocks u).dels (updateLists blocks u).writes
      (updateLists blocks u).news).map (·.id)).Nodup := by
  have plan := update_plan sound grown.sound spans mirror
  obtain ⟨high, higher⟩ := update_above sound starts grown spans
  have few : (updateLists blocks u).news.length ≤ 1 := by simpa [updateLists] using few
  have dumps : dumpIds ix 0 (updateLists blocks u).writes =
      (updateLists blocks u).writes.map (·.newId) := by rw [dumpIds, given]; rfl
  have low : ∀ id ∈ (keptOf (updateLists blocks u).dels
      ((updateLists blocks u).writes.map (·.id)) client).map (·.id), id ≤ last := by
    intro id kept
    have mine := (List.filter_sublist.map _).subset kept
    rw [mirror] at mine
    obtain ⟨other, inside, rfl⟩ := List.mem_map.mp mine
    exact le_last sound.ascending starts inside
  rw [parts_ids plan, dumps, created_given given few]
  apply List.nodup_append.mpr
  refine ⟨List.nodup_append.mpr ⟨?_, newIds_nodup sound grown spans, ?_⟩, ?_, ?_⟩
  · exact (plan.ascending.imp Nat.ne_of_lt).sublist (List.filter_sublist.map _)
  · intro id kept id' written same
    have under := low id kept
    have above := high id' written
    omega
  · cases news : (updateLists blocks u).news with
    | nil => exact .nil
    | cons first rest =>
      rw [news] at few
      obtain rfl := List.eq_nil_of_length_eq_zero (Nat.le_zero.mp (Nat.le_of_succ_le_succ few))
      exact List.nodup_singleton _
  · intro id before id' created same
    rcases List.mem_append.mp before with kept | written
    · have under := low id kept
      have above := higher id' created
      omega
    · exact newIds_apart sound grown spans written (same ▸ created)

/-- What the client keeps is what the server has kept. -/
theorem kept_copies {mine : AddrPair Q} (member : mine ∈ keptOf (updateLists blocks u).dels
    ((updateLists blocks u).writes.map (·.id)) client) :
    ∃ pair ∈ new.orderId, Copies blocks old client (keptEntry mine) pair := by
  obtain ⟨dels, writes⟩ := update_ids sound grown.sound spans
  rw [dels, writes] at member
  obtain ⟨inside, outside⟩ := List.mem_filter.mp member
  have there := List.mem_map_of_mem (f := (·.id)) inside
  rw [mirror] at there
  obtain ⟨pair, here, same⟩ := List.mem_map.mp there
  rw [decide_eq_true_eq, ← same] at outside
  have present : ¬ Gone blocks new pair := fun gone =>
    outside.1 (List.mem_map_of_mem (List.mem_filter.mpr ⟨here, decide_eq_true gone⟩))
  have untouched : ¬ Rewritten blocks new pair := fun rewritten =>
    outside.2 (List.mem_map_of_mem (List.mem_filter.mpr ⟨here, decide_eq_true rewritten⟩))
  simp only [Gone, not_forall, not_not] at present
  obtain ⟨now, still, sameAddr⟩ := present
  have unchanged : now.id = pair.id := by
    by_contra differs
    exact untouched ⟨now, still, sameAddr, differs⟩
  have low := le_last sound.ascending starts here
  have old := grown.unchanged now still (by omega)
  obtain rfl := unique_id sound old here unchanged
  refine ⟨now, still, ?_⟩
  have entry : keptEntry mine = ⟨now.id, some (.kept mine.addr)⟩ := by rw [keptEntry, ← same]
  rw [entry]
  refine .kept old ?_
  rw [same]
  exact inside

omit starts in
/-- What the client writes is what the server has written. -/
theorem dump_copies {x : AddrPair Q × Nat}
    (member : x ∈ (writtenOf ((updateLists blocks u).writes.map (·.id)) client).zip
      ((updateLists blocks u).writes.map (·.newId))) :
    ∃ pair ∈ new.orderId, Copies blocks old client (dumpEntry x) pair := by
  have plan := update_plan sound grown.sound spans mirror
  have pairs := update_writes sound grown.sound spans
  rw [List.zip_map_right] at member
  obtain ⟨⟨mine, w⟩, inside, rfl⟩ := List.mem_map.mp member
  have keys : List.Forall₂ (fun (mine : AddrPair Q) (w : WriteIds) => mine.id = w.id)
      (writtenOf ((updateLists blocks u).writes.map (·.id)) client)
      (updateLists blocks u).writes :=
    Pointwise.of_keys plan.counts.2 fun _ _ _ _ same => same
  have key := List.forall₂_zip keys inside
  obtain ⟨one, other⟩ := List.of_mem_zip inside
  obtain ⟨prev, there, oldId, now, here, sameAddr, differs, newId⟩ := Pointwise.partner pairs other
  refine ⟨now, here, ?_⟩
  have entry : dumpEntry (Prod.map id WriteIds.newId (mine, w)) =
      ⟨now.id, some (.dump mine.addr)⟩ := by
    rw [← newId]
    rfl
  rw [entry]
  refine .dump (prevs_within spans there).1 sameAddr.symm (Ne.symm differs) ?_
  rw [← oldId, ← key]
  exact (List.mem_filter.mp one).1

end

/-- The one block that the client makes is that of the server. -/
theorem created_copies (later : Sound blocks new) (spans : Spans blocks old new u)
    (few : u.news.length ≤ 1) {ix : Indexes} (given : ix.hasNewId = true)
    {entry : AddrPair (Option (Made Q))}
    (member : entry ∈ createdOf ix (updateLists blocks u).news) :
    ∃ pair ∈ new.orderId, Copies blocks old client entry pair := by
  have news := spans.news
  rw [updateLists] at member
  cases only : u.news with
  | nil =>
    rw [only] at member
    cases member
  | cons pair rest =>
    rw [only] at few member news
    obtain rfl := List.eq_nil_of_length_eq_zero (Nat.le_zero.mp (Nat.le_of_succ_le_succ few))
    have inside : pair ∈ new.orderId.filter fun pair => Gone blocks old pair := by simp [← news]
    obtain ⟨there, gone⟩ := List.mem_filter.mp inside
    have entry : entry = ⟨pair.id, some (.created (blocks pair.addr).typeId
        (blocks pair.addr).typeNum)⟩ := by
      simpa [createdOf, createdIds, given, later.ids pair there] using member
    exact ⟨pair, there, entry ▸ .created (of_decide_eq_true gone)⟩

section
variable (sound : Sound blocks old) (starts : lastId old = some last)
  (grown : Grown blocks old new last) (spans : Spans blocks old new u)
  (mirror : client.map (·.id) = old.orderId.map (·.id))
include sound starts grown spans mirror

/-- The client's order has as many blocks as the server's version. -/
theorem parts_length (few : u.news.length ≤ 1) {ix : Indexes} (given : ix.hasNewId = true) :
    (parts ix client (updateLists blocks u).dels (updateLists blocks u).writes
      (updateLists blocks u).news).length = new.orderId.length := by
  have plan := update_plan sound grown.sound spans mirror
  obtain ⟨dels, writes⟩ := update_ids sound grown.sound spans
  have few : (updateLists blocks u).news.length ≤ 1 := by simpa [updateLists] using few
  have news : (updateLists blocks u).news.length =
      ((new.orderId.filter fun p => last < p.id).filter fun p => Gone blocks old p).length := by
    rw [updateLists, List.length_map, spans.news, news_above grown]
  have high := List.length_eq_length_filter_add (l := new.orderId) fun p => decide (last < p.id)
  have fresh := List.length_eq_length_filter_add
    (l := new.orderId.filter fun p => last < p.id) fun p => decide (Gone blocks old p)
  have low : (new.orderId.filter fun p => !decide (last < p.id)) =
      new.orderId.filter fun p => decide (p.id ≤ last) := by
    apply List.filter_congr
    intro p _
    rw [← decide_not]
    exact decide_eq_decide.mpr Nat.not_lt
  have kept := kept_count sound starts grown
  have written := written_count sound starts grown
  have size := congrArg List.length mirror
  have dels := congrArg List.length dels
  have writes := congrArg List.length writes
  have count := plan.counts.1
  have ids := congrArg List.length (show (parts ix client (updateLists blocks u).dels
    (updateLists blocks u).writes (updateLists blocks u).news).map (·.id) = _ from parts_ids plan)
  rw [low] at high
  simp only [created_given given few, List.length_map, List.length_append, dumpIds_length,
    decide_not] at size dels writes count ids written
  omega

/-- A client whose blocks have the ids of the older version makes its copy of the newer one, if at
most one block is new. -/
theorem order_copies (few : u.news.length ≤ 1) {ix : Indexes} (given : ix.hasNewId = true)
    {final : Order Q} (perm : final.Perm (parts ix client (updateLists blocks u).dels
      (updateLists blocks u).writes (updateLists blocks u).news))
    (sorted : final.Pairwise (·.id ≤ ·.id)) :
    List.Forall₂ (Copies blocks old client) final new.orderId := by
  have plan := update_plan sound grown.sound spans mirror
  have dumps : dumpIds ix 0 (updateLists blocks u).writes =
      (updateLists blocks u).writes.map (·.newId) := by rw [dumpIds, given]; rfl
  have copied : ∀ entry ∈ final, ∃ pair ∈ new.orderId, Copies blocks old client entry pair := by
    intro entry member
    rcases List.mem_append.mp (perm.mem_iff.mp member) with before | created
    · rcases List.mem_append.mp before with kept | written
      · obtain ⟨mine, inside, rfl⟩ := List.mem_map.mp kept
        exact kept_copies sound starts grown spans mirror inside
      · obtain ⟨x, inside, rfl⟩ := List.mem_map.mp written
        rw [dumps] at inside
        exact dump_copies sound grown spans mirror inside
    · exact created_copies grown.sound spans few given created
  have sameId {entry : AddrPair (Option (Made Q))} {pair : AddrPair P}
      (copies : Copies blocks old client entry pair) : entry.id = pair.id := by
    cases copies <;> rfl
  have distinct : (final.map (·.id)).Nodup :=
    (perm.map _).nodup_iff.mpr (update_nodup sound starts grown spans mirror few given)
  have ids : final.map (·.id) = new.orderId.map (·.id) := by
    have within : final.map (·.id) ⊆ new.orderId.map (·.id) := by
      intro id member
      obtain ⟨entry, inside, rfl⟩ := List.mem_map.mp member
      obtain ⟨pair, there, copies⟩ := copied entry inside
      rw [sameId copies]
      exact List.mem_map_of_mem there
    have size : (new.orderId.map (·.id)).length ≤ (final.map (·.id)).length := by
      rw [List.length_map, List.length_map, perm.length_eq]
      exact (parts_length sound starts grown spans mirror few given).ge
    have mine : (final.map (·.id)).Pairwise (· ≤ ·) := List.pairwise_map.mpr sorted
    have server : (new.orderId.map (·.id)).Pairwise (· ≤ ·) :=
      List.pairwise_map.mpr (grown.sound.ascending.imp Nat.le_of_lt)
    exact List.Perm.eq_of_pairwise (fun _ _ _ _ => Nat.le_antisymm) mine server
      ((List.subperm_of_subset distinct within).perm_of_length_le size)
  refine Pointwise.of_keys ids fun entry member pair there same => ?_
  obtain ⟨other, inside, copies⟩ := copied entry member
  have here : other = pair := unique_id grown.sound inside there ((sameId copies).symm.trans same)
  exact here ▸ copies

end

section
variable {types : StructAll}

theorem sized {b : MemBlock} (known : 0 < getBlockbufLen types b) :
    0 < types.structLen b.typeId * b.typeNum := by
  unfold getBlockbufLen at known
  dsimp only at known
  split at known
  · contradiction
  next valid =>
    have len : 0 < types.structLen b.typeId := by omega
    have points : 0 ≤ types.structPointsNum b.typeId := by omega
    have total : 0 < types.structLen b.typeId + types.structPointsNum b.typeId * idOffsetLen := by
      unfold idOffsetLen
      omega
    exact Int.mul_pos len (Int.pos_of_mul_pos_left known total)

/-- All new blocks of a packet have the id of the first one. -/
theorem created_few {ix : Indexes} {news : List NewIds} (given : ix.hasNewId = true)
    (distinct : ((createdOf (P := Q) ix news).map (·.id)).Nodup) : news.length ≤ 1 := by
  cases news with
  | nil => exact Nat.zero_le 1
  | cons first rest =>
    cases rest with
    | nil => exact Nat.le_refl 1
    | cons second rest => simp [createdOf, createdIds, given, List.replicate_succ] at distinct

/-- A client whose blocks have the ids of the older version makes a version of the update. It is a
copy of the newer one if at most one block is new, and has other ids if more are. -/
theorem replay (sound : Sound blocks old)
    (later : Relation.TransGen (Committed blocks) old new)
    (made : getUpdate blocks types old new = .ok u)
    (mirror : client.map (·.id) = old.orderId.map (·.id)) :
    ∃ final, createNewVersion types client true (updateLists blocks u).dels
        (updateLists blocks u).writes (updateLists blocks u).news = .ok final ∧
      (u.news.length ≤ 1 → List.Forall₂ (Copies blocks old client) final new.orderId) ∧
      (final.map (·.id) = new.orderId.map (·.id) → u.news.length ≤ 1) := by
  obtain ⟨last, starts⟩ := sound.starts
  have grown := Grown.of_history sound starts later.to_reflTransGen
  obtain ⟨⟨written, known⟩, spans⟩ := getUpdate_made sound starts grown made
  have plan := update_plan sound grown.sound spans mirror
  obtain ⟨_, writes⟩ := update_ids sound grown.sound spans
  have wrote : (updateLists blocks u).writes ≠ [] := by
    intro none
    rw [none] at writes
    obtain ⟨pair, member, rewritten⟩ := written
    have empty := List.filter_eq_nil_iff.mp (List.map_eq_nil_iff.mp writes.symm) pair member
    exact empty (decide_eq_true rewritten)
  have ends : client.getLast?.map (·.id) = some last := by
    rw [← List.getLast?_map, mirror, List.getLast?_map]
    exact starts
  obtain ⟨final, ends, _⟩ := Option.map_eq_some_iff.mp ends
  have begins : writeIdStart client = some (final.id + 1) := by rw [writeIdStart, ends]; rfl
  have valid : ∀ first ∈ (updateLists blocks u).news.head?,
      0 < types.structLen first.typeId * first.typeNum := by
    intro first head
    obtain ⟨pair, member, rfl⟩ := List.mem_map.mp (List.mem_of_head? head)
    rw [spans.news] at member
    obtain ⟨there, gone⟩ := List.mem_filter.mp member
    exact sized (known pair there fun here => of_decide_eq_true gone pair here rfl)
  obtain ⟨final, ran, perm, sorted⟩ := qsort_sorts (parts (indexesOf true _
    (keptOf (updateLists blocks u).dels ((updateLists blocks u).writes.map (·.id)) client).length
    (updateLists blocks u).writes.length) client (updateLists blocks u).dels
    (updateLists blocks u).writes (updateLists blocks u).news)
  refine ⟨final, createNewVersion_ok.mpr
    ⟨_, createOrder_eq plan wrote begins valid rfl, ran⟩, ?_, ?_⟩
  · intro few
    exact order_copies sound starts grown spans mirror few rfl perm sorted
  · intro ids
    have distinct : (final.map (·.id)).Nodup := by
      rw [ids]
      exact List.pairwise_map.mpr (grown.sound.ascending.imp Nat.ne_of_lt)
    have distinct := (perm.map _).nodup_iff.mp distinct
    rw [parts_ids plan] at distinct
    have few := created_few rfl (List.nodup_append.mp distinct).2.1
    simpa only [updateLists, List.length_map] using few

end
end
end MoonInWater.Sync.Replica
