import MoonInWater.Sync.CommitOrder
import Mathlib.Data.List.Nodup

/-! Commit and rebuild: the blocks that get_commit_packet feeds to to_md5, compared with those of
the version that _create_new_version makes of the same ids. -/
namespace MoonInWater.Sync.Commit
open Pairs
variable {P : Type} [DecidableEq P]

def MemBlock.isNew (b : MemBlock) : Bool := decide (b.id = 0)
def MemBlock.isDelete (b : MemBlock) : Bool := decide (b.id ≠ 0) && b.isDel
def MemBlock.isWrite (b : MemBlock) : Bool := decide (b.id ≠ 0) && !b.isDel

/-- Two states of the blocks that differ in tmp_id only. -/
def Same (blocks blocks' : P → MemBlock) : Prop :=
  ∀ p, blocks' p = { blocks p with tmpId := (blocks' p).tmpId }

section
variable {blocks blocks' blocks'' : P → MemBlock} {p q : P} {id : Nat}

omit [DecidableEq P] in
theorem Same.refl (blocks : P → MemBlock) : Same blocks blocks := fun _ => rfl

omit [DecidableEq P] in
theorem Same.trans (first : Same blocks blocks') (second : Same blocks' blocks'') :
    Same blocks blocks'' := by
  intro p
  rw [second p, first p]

theorem setTmpId_same (p : P) (id : Nat) (blocks : P → MemBlock) :
    Same blocks (setTmpId p id blocks) := by
  intro q
  by_cases here : q = p
  · subst here
    simp [setTmpId]
  · simp [setTmpId, Function.update_of_ne here]

@[simp] theorem setTmpId_self (p : P) (id : Nat) (blocks : P → MemBlock) :
    (setTmpId p id blocks p).tmpId = id := by
  simp [setTmpId]

theorem setTmpId_other (other : q ≠ p) : setTmpId p id blocks q = blocks q :=
  Function.update_of_ne other ..

omit [DecidableEq P] in
/-- The first traversal accepts blocks of known types, and counts the written ones. -/
theorem pac1Func_counts {all : StructAll} {tree : List P} {c : Counts}
    (types : ∀ p ∈ tree, 0 < getBlockbufLen all (blocks p)) :
    ∃ c', tree.foldlM (fun c p => pac1Func all (blocks p) c) c = some c' ∧
      c'.writes = c.writes + (tree.filter fun p => (blocks p).isWrite).length := by
  induction tree generalizing c with
  | nil => exact ⟨c, rfl, rfl⟩
  | cons p tree ih =>
    have known := types p List.mem_cons_self
    have types := fun q member => types q (List.mem_cons_of_mem _ member)
    simp only [List.foldlM_cons, pac1Func, if_neg (Int.not_le.mpr known)]
    by_cases new : (blocks p).id = 0
    · rw [if_pos new, List.filter_cons_of_neg (by simp [MemBlock.isWrite, new])]
      exact ih types
    · rw [if_neg new]
      cases del : (blocks p).isDel with
      | true =>
        rw [List.filter_cons_of_neg (by simp [MemBlock.isWrite, del])]
        exact ih types
      | false =>
        rw [List.filter_cons_of_pos (by simp [MemBlock.isWrite, del, new])]
        obtain ⟨c', ran, count⟩ := ih (c := { c with
          writes := c.writes + 1
          writeBlockSize := c.writeBlockSize + getBlockbufLen all (blocks p) }) types
        refine ⟨c', ran, ?_⟩
        rw [count, List.length_cons]
        dsimp only
        omega

/-- The pair of a changed block, under its old id. -/
def oldPair (blocks : P → MemBlock) (p : P) : AddrPair P := ⟨(blocks p).id, p⟩

/-- What the second traversal does with some blocks of the tree. -/
structure Collects (blocks : P → MemBlock) (newIdStart : Nat) (tree : List P) (s s' : Changes P) :
    Prop where
  same : Same blocks s'.blocks
  dels : s'.dels = s.dels ++ (tree.filter fun p => (blocks p).isDelete).map (oldPair blocks)
  writes : s'.writes = s.writes ++ (tree.filter fun p => (blocks p).isWrite).map (oldPair blocks)
  news : s'.news = s.news ++ ((tree.filter fun p => (blocks p).isNew).zipIdx
    (newIdStart + s.news.length)).map fun x => ⟨x.2, x.1⟩
  ids : (s.news.map (·.addr) ++ tree).Nodup → (∀ x ∈ s.news, (s.blocks x.addr).tmpId = x.id) →
    ∀ x ∈ s'.news, (s'.blocks x.addr).tmpId = x.id

omit [DecidableEq P] in
theorem Collects.append {newIdStart : Nat} {front rear : List P} {s s₁ s₂ : Changes P}
    (first : Collects blocks newIdStart front s s₁) (second : Collects blocks newIdStart rear s₁ s₂)
    : Collects blocks newIdStart (front ++ rear) s s₂ where
  same := second.same
  dels := by rw [second.dels, first.dels, List.filter_append, List.map_append, List.append_assoc]
  writes := by
    rw [second.writes, first.writes, List.filter_append, List.map_append, List.append_assoc]
  news := by
    rw [second.news, first.news, List.filter_append, List.zipIdx_append, List.map_append,
      List.append_assoc]
    simp [Nat.add_assoc]
  ids distinct set := by
    have part : (s.news.map (·.addr) ++ front).Nodup := by
      rw [← List.append_assoc] at distinct
      exact (List.nodup_append.mp distinct).1
    apply second.ids _ (first.ids part set)
    have fewer : (s₁.news.map (·.addr)).Sublist (s.news.map (·.addr) ++ front) := by
      rw [first.news, List.map_append]
      apply List.Sublist.append (List.Sublist.refl _)
      rw [List.map_map]
      have addrs : (((front.filter fun p => (blocks p).isNew).zipIdx
          (newIdStart + s.news.length)).map ((·.addr) ∘ fun x => (⟨x.2, x.1⟩ : AddrPair P))) =
            front.filter fun p => (blocks p).isNew := List.zipIdx_map_fst _ _
      rw [addrs]
      exact List.filter_sublist
    rw [← List.append_assoc] at distinct
    exact distinct.sublist (fewer.append (List.Sublist.refl rear))

theorem pac2Func_collects {orderId : List (AddrPair P)} (newIdStart : Nat) {s : Changes P}
    (ascending : orderId.Pairwise (·.id < ·.id))
    (known : (blocks p).isWrite → ∃ pair ∈ orderId, pair.id = (blocks p).id)
    (same : Same blocks s.blocks) :
    ∃ s', pac2Func orderId newIdStart p s = some s' ∧ Collects blocks newIdStart [p] s s' := by
  have idHere : (s.blocks p).id = (blocks p).id := by rw [same p]
  have delHere : (s.blocks p).isDel = (blocks p).isDel := by rw [same p]
  unfold pac2Func
  by_cases new : (blocks p).id = 0
  · rw [if_pos (idHere.trans new)]
    refine ⟨_, rfl, same.trans (setTmpId_same _ _ _), ?_, ?_, ?_, ?_⟩
    · simp [MemBlock.isDelete, new]
    · simp [MemBlock.isWrite, new]
    · simp [MemBlock.isNew, new]
    · intro distinct set x member
      rcases List.mem_append.mp member with old | last
      · have other : x.addr ≠ p := by
          intro here
          have outside := (List.nodup_append.mp distinct).2.2 _ (List.mem_map_of_mem old) p
            (List.mem_singleton_self p)
          exact outside here
        dsimp only
        rw [setTmpId_other other]
        exact set x old
      · rw [List.mem_singleton.mp last]
        exact setTmpId_self _ _ _
  · rw [if_neg (fun none => new (idHere ▸ none))]
    cases del : (blocks p).isDel with
    | true =>
      rw [if_pos (delHere.trans del)]
      refine ⟨_, rfl, same, ?_, ?_, ?_, fun _ set => set⟩
      · simp [MemBlock.isDelete, new, del, oldPair, idHere]
      · simp [MemBlock.isWrite, del]
      · simp [MemBlock.isNew, new]
    | false =>
      rw [if_neg (by simp [delHere, del])]
      obtain ⟨pair, member, here⟩ := known (by simp [MemBlock.isWrite, new, del])
      have found := searchAddrId_exact ascending member (Nat.lt_succ_self _)
      rw [here] at found
      simp only [idHere, found, here, if_true]
      refine ⟨_, rfl, same, ?_, ?_, ?_, fun _ set => set⟩
      · simp [MemBlock.isDelete, del]
      · simp [MemBlock.isWrite, new, del, oldPair]
      · simp [MemBlock.isNew, new]

theorem travel_collects {orderId : List (AddrPair P)} (newIdStart : Nat) {tree : List P}
    (s : Changes P) (ascending : orderId.Pairwise (·.id < ·.id))
    (known : ∀ p ∈ tree, (blocks p).isWrite → ∃ pair ∈ orderId, pair.id = (blocks p).id)
    (same : Same blocks s.blocks) :
    ∃ s', tree.foldlM (fun s p => pac2Func orderId newIdStart p s) s = some s' ∧
      Collects blocks newIdStart tree s s' := by
  induction tree generalizing s with
  | nil => exact ⟨s, rfl, same, by simp, by simp, by simp, fun _ set => set⟩
  | cons p tree ih =>
    obtain ⟨s₁, ran, first⟩ := pac2Func_collects newIdStart ascending
      (known p List.mem_cons_self) same
    obtain ⟨s₂, ran', second⟩ := ih s₁ (fun q member => known q (List.mem_cons_of_mem _ member))
      first.same
    exact ⟨s₂, by rw [List.foldlM_cons, ran]; exact ran', first.append second⟩

/-- The written blocks get the ids from `id` on, in the order of their list. -/
theorem setWriteIds_ids (blocks : P → MemBlock) (id : Nat) {writes : List (AddrPair P)}
    (distinct : (writes.map (·.addr)).Nodup) :
    Same blocks (setWriteIds blocks id writes) ∧
      (∀ q, q ∉ writes.map (·.addr) → setWriteIds blocks id writes q = blocks q) ∧
      writes.map (fun w => (setWriteIds blocks id writes w.addr).tmpId) =
        List.range' id writes.length := by
  induction writes generalizing blocks id with
  | nil => exact ⟨.refl blocks, fun _ _ => rfl, rfl⟩
  | cons w writes ih =>
    obtain ⟨outside, distinct⟩ := List.nodup_cons.mp distinct
    obtain ⟨same, others, ids⟩ := ih (setTmpId w.addr id blocks) (id + 1) distinct
    refine ⟨(setTmpId_same _ _ _).trans same, ?_, ?_⟩
    · intro q member
      obtain ⟨other, member⟩ := not_or.mp (List.mem_cons.not.mp member)
      rw [setWriteIds, others q member, setTmpId_other other]
    · rw [List.map_cons, List.length_cons, List.range'_succ]
      congr 1
      rw [setWriteIds, others _ outside, setTmpId_self]

omit [DecidableEq P] in
theorem qsort_ascending {pairs : List (AddrPair P)} (distinct : (pairs.map (·.id)).Nodup) :
    ∃ sorted, qsort pairs = some sorted ∧ sorted.Perm pairs ∧ sorted.Pairwise (·.id < ·.id) := by
  obtain ⟨sorted, ran, perm, order⟩ := qsort_sorts pairs
  refine ⟨sorted, ran, perm, ?_⟩
  have apart : sorted.Pairwise fun x y => x.id ≠ y.id :=
    List.pairwise_map.mp ((perm.map AddrPair.id).nodup_iff.mpr distinct)
  exact (order.and apart).imp fun both => Nat.lt_of_le_of_ne both.1 both.2

end

/-- A version, and the tree of changes that a shadow has made to it. -/
structure Input (all : StructAll) (orderId : List (AddrPair P)) (tree : List P)
    (blocks : P → MemBlock) : Prop where
  ascending : orderId.Pairwise (·.id < ·.id)
  ids : ∀ pair ∈ orderId, (blocks pair.addr).id = pair.id
  types : ∀ p ∈ tree, 0 < getBlockbufLen all (blocks p)
  distinct : tree.Nodup
  known : ∀ p ∈ tree, (blocks p).id ≠ 0 → ∃ pair ∈ orderId, pair.id = (blocks p).id
  once : ((tree.filter fun p => !(blocks p).isNew).map fun p => (blocks p).id).Nodup
  wrote : ∃ p ∈ tree, (blocks p).isWrite

/-- The lists that get_commit_packet makes. -/
structure Commits (orderId : List (AddrPair P)) (tree : List P) (blocks : P → MemBlock)
    (start : Nat) (sent : Sent P) : Prop where
  starts : writeIdStart orderId = some start
  plan : Plan (sent.dels.map (·.id)) (sent.writes.map (·.id)) orderId
  same : Same blocks sent.blocks
  kept : sent.kept = (keptOf (sent.dels.map (·.id)) (sent.writes.map (·.id)) orderId).map (·.addr)
  dels : sent.dels.Perm ((tree.filter fun p => (blocks p).isDelete).map (oldPair blocks))
  writes : sent.writes.Perm ((tree.filter fun p => (blocks p).isWrite).map (oldPair blocks))
  writeIds : sent.writes.map (fun w => (sent.blocks w.addr).tmpId) =
    List.range' start sent.writes.length
  news : sent.news.map (·.addr) = tree.filter fun p => (blocks p).isNew
  newIds : sent.news.map (fun w => (sent.blocks w.addr).tmpId) =
    List.range' (start + sent.writes.length) sent.news.length

section
variable {all : StructAll} {orderId : List (AddrPair P)} {tree : List P} {blocks : P → MemBlock}

omit [DecidableEq P] in
/-- Some of the changes, sorted, are a selection of the ids of the version. -/
theorem Input.selects (input : Input all orderId tree blocks) {kind : MemBlock → Bool}
    (old : ∀ b, kind b = true → b.id ≠ 0) {sorted : List (AddrPair P)}
    (perm : sorted.Perm ((tree.filter fun p => kind (blocks p)).map (oldPair blocks)))
    (ascending : sorted.Pairwise (·.id < ·.id)) :
    Selects (sorted.map (·.id)) (orderId.map (·.id)) where
  ascending := List.pairwise_map.mpr ascending
  within id member := by
    obtain ⟨pair, inside, rfl⟩ := List.mem_map.mp member
    obtain ⟨p, chosen, rfl⟩ := List.mem_map.mp (perm.mem_iff.mp inside)
    obtain ⟨inTree, is⟩ := List.mem_filter.mp chosen
    obtain ⟨found, member, here⟩ := input.known p inTree (old _ is)
    exact List.mem_map.mpr ⟨found, member, here⟩

omit [DecidableEq P] in
/-- The changes of one kind have distinct ids, and so distinct blocks. -/
theorem Input.kind_distinct (input : Input all orderId tree blocks) {kind : MemBlock → Bool}
    (old : ∀ b, kind b = true → b.id ≠ 0) :
    (((tree.filter fun p => kind (blocks p)).map (oldPair blocks)).map (·.id)).Nodup := by
  have fewer : (tree.filter fun p => kind (blocks p)).Sublist
      (tree.filter fun p => !(blocks p).isNew) := by
    apply List.monotone_filter_right
    intro p is
    simpa [MemBlock.isNew] using old _ is
  have ids := input.once.sublist (fewer.map fun p => (blocks p).id)
  simpa [oldPair, Function.comp_def] using ids

theorem isDelete_old (b : MemBlock) (is : b.isDelete = true) : b.id ≠ 0 := by
  simp only [MemBlock.isDelete, Bool.and_eq_true, decide_eq_true_eq] at is
  exact is.1

theorem isWrite_old (b : MemBlock) (is : b.isWrite = true) : b.id ≠ 0 := by
  simp only [MemBlock.isWrite, Bool.and_eq_true, decide_eq_true_eq] at is
  exact is.1

omit [DecidableEq P] in
theorem Input.starts (input : Input all orderId tree blocks) :
    ∃ start, writeIdStart orderId = some start := by
  obtain ⟨p, member, is⟩ := input.wrote
  obtain ⟨pair, inside, _⟩ := input.known p member (isWrite_old _ is)
  rw [writeIdStart, List.getLast?_eq_some_getLast (List.ne_nil_of_mem inside)]
  exact ⟨_, rfl⟩

theorem Input.commits (input : Input all orderId tree blocks) :
    ∃ start sent, getCommit all orderId tree blocks = some sent ∧
      Commits orderId tree blocks start sent := by
  obtain ⟨start, starts⟩ := input.starts
  obtain ⟨counts, counted, number⟩ := pac1Func_counts (c := ⟨0, 0, 0, 0, 0⟩) input.types
  have number : counts.writes = (tree.filter fun p => (blocks p).isWrite).length := by
    simpa using number
  have wrote : counts.writes ≠ 0 := by
    obtain ⟨p, member, is⟩ := input.wrote
    have inside : p ∈ tree.filter fun p => (blocks p).isWrite := List.mem_filter.mpr ⟨member, is⟩
    rw [number]
    exact Nat.ne_of_gt (List.length_pos_of_mem inside)
  obtain ⟨changes, collected, same, dels, writes, news, ids⟩ :=
    travel_collects (start + counts.writes) ⟨[], [], [], [], blocks⟩ input.ascending
      (fun p member is => input.known p member (isWrite_old _ is)) (.refl blocks)
  simp only [List.nil_append, List.length_nil, Nat.add_zero, List.map_nil] at dels writes news ids
  have ids := ids input.distinct (by simp)
  have distinctDels := input.kind_distinct isDelete_old
  have distinctWrites := input.kind_distinct isWrite_old
  rw [← dels] at distinctDels
  rw [← writes] at distinctWrites
  obtain ⟨dels', sortedDels, permDels, orderDels⟩ := qsort_ascending distinctDels
  obtain ⟨writes', sortedWrites, permWrites, orderWrites⟩ := qsort_ascending distinctWrites
  obtain ⟨prevs', sortedPrevs, _⟩ := qsort_sorts changes.prevs
  rw [dels] at permDels
  rw [writes] at permWrites
  have size : counts.writes = writes'.length := by
    rw [number, permWrites.length_eq, List.length_map]
  have addrs : (writes'.map (·.addr)).Perm (tree.filter fun p => (blocks p).isWrite) := by
    simpa [oldPair, Function.comp_def] using permWrites.map AddrPair.addr
  have distinct : (writes'.map (·.addr)).Nodup :=
    addrs.nodup_iff.mpr (input.distinct.filter _)
  obtain ⟨sameSet, others, writeIds⟩ :=
    setWriteIds_ids changes.blocks start distinct
  have newAddrs : changes.news.map (·.addr) = tree.filter fun p => (blocks p).isNew := by
    rw [news, List.map_map]
    exact List.zipIdx_map_fst _ _
  refine ⟨start, ⟨⟨dels', writes', prevs', changes.news, setWriteIds changes.blocks start writes'⟩,
    md5Kept (setWriteIds changes.blocks start writes') orderId dels' writes'⟩, ?_, ?_⟩
  · simp [getCommit, counted, wrote, starts, collected, sortedDels, sortedWrites, sortedPrevs]
  · have same := same.trans sameSet
    have plan : Plan (dels'.map (·.id)) (writes'.map (·.id)) orderId := by
      refine ⟨List.pairwise_map.mpr input.ascending, input.selects isDelete_old permDels orderDels,
        input.selects isWrite_old permWrites orderWrites, ?_⟩
      intro id del write
      obtain ⟨x, inDels, rfl⟩ := List.mem_map.mp del
      obtain ⟨y, inWrites, same⟩ := List.mem_map.mp write
      obtain ⟨p, chosen, rfl⟩ := List.mem_map.mp (permDels.mem_iff.mp inDels)
      obtain ⟨q, chosen', rfl⟩ := List.mem_map.mp (permWrites.mem_iff.mp inWrites)
      obtain ⟨inTree, isDelete⟩ := List.mem_filter.mp chosen
      obtain ⟨inTree', isWrite⟩ := List.mem_filter.mp chosen'
      have old : p ∈ tree.filter fun p => !(blocks p).isNew :=
        List.mem_filter.mpr ⟨inTree, by simpa [MemBlock.isNew] using isDelete_old _ isDelete⟩
      have old' : q ∈ tree.filter fun p => !(blocks p).isNew :=
        List.mem_filter.mpr ⟨inTree', by simpa [MemBlock.isNew] using isWrite_old _ isWrite⟩
      have here : q = p := List.inj_on_of_nodup_map input.once old' old same
      rw [here] at isWrite
      simp only [MemBlock.isDelete, MemBlock.isWrite, Bool.and_eq_true] at isDelete isWrite
      simp [isDelete.2] at isWrite
    refine ⟨starts, plan, same, md5Kept_eq ?_ plan, permDels, permWrites, writeIds, newAddrs, ?_⟩
    · intro pair member
      rw [same pair.addr]
      exact input.ids pair member
    · have kept : ∀ w ∈ changes.news,
          (setWriteIds changes.blocks start writes' w.addr).tmpId = w.id := by
        intro w member
        rw [others w.addr ?_, ids w member]
        intro written
        have isNew := newAddrs ▸ List.mem_map_of_mem (f := AddrPair.addr) member
        obtain ⟨_, isNew⟩ := List.mem_filter.mp isNew
        obtain ⟨_, isWrite⟩ := List.mem_filter.mp (addrs.mem_iff.mp written)
        simp [MemBlock.isNew] at isNew
        exact isWrite_old _ isWrite isNew
      rw [List.map_congr_left kept]
      dsimp only
      rw [← size, news, List.map_map, List.length_map, List.length_zipIdx]
      exact List.zipIdx_map_snd _ _

end

/-- What a block of a new version comes from: a kept block of the base, the block of an id of the
base, or an entry of the list of new blocks. -/
inductive Origin (P : Type) where
  | kept (p : P)
  | written (id : Nat)
  | new (typeId typeNum : Int)
deriving DecidableEq

def Made.origin (blocks : P → MemBlock) : Made P → Origin P
  | .kept p => .kept p
  | .dump p => .written (blocks p).id
  | .created typeId typeNum => .new typeId typeNum

/-- The blocks of order_id, with their ids. -/
def Order.origins (blocks : P → MemBlock) (order : Order P) : List (Option (Origin P) × Nat) :=
  order.map fun e => (e.addr.map (Made.origin blocks), e.id)

/-- The blocks that go into to_md5, with the ids that the new version has for them. -/
def Sent.origins (sent : Sent P) : List (Option (Origin P) × Nat) :=
  sent.kept.map (fun p => (some (.kept p), (sent.blocks p).id)) ++
    sent.writes.map (fun w =>
      (some (.written (sent.blocks w.addr).id), (sent.blocks w.addr).tmpId)) ++
    sent.news.map fun w => (some (.new (sent.blocks w.addr).typeId (sent.blocks w.addr).typeNum),
      (sent.blocks w.addr).tmpId)

/-- The lists of ids that a commit packet carries. -/
def Sent.delIds (sent : Sent P) : List Nat := sent.dels.map fun w => (sent.blocks w.addr).id

def Sent.writeIds (sent : Sent P) : List WriteIds :=
  sent.writes.map fun w => ⟨(sent.blocks w.addr).id, 0⟩

def Sent.newIds (sent : Sent P) : List NewIds :=
  sent.news.map fun w => ⟨(sent.blocks w.addr).typeId, (sent.blocks w.addr).typeNum, 0⟩

/-- The new version is that of the commit. -/
structure Agrees (orderId : List (AddrPair P)) (tree : List P) (blocks : P → MemBlock)
    (sent : Sent P) (order : Order P) : Prop where
  origins : order.origins blocks = sent.origins
  full : ∀ e ∈ order, e.addr ≠ none
  ascending : order.Pairwise (·.id < ·.id)
  kept : ∀ pair ∈ orderId, (∀ p ∈ tree, (blocks p).id ≠ 0 → (blocks p).id ≠ pair.id) →
    (order.map (·.addr)).count (some (.kept pair.addr)) = 1
  deleted : ∀ pair ∈ orderId, (∃ p ∈ tree, (blocks p).isDelete ∧ (blocks p).id = pair.id) →
    ∀ e ∈ order, e.addr ≠ some (.kept pair.addr) ∧ e.addr ≠ some (.dump pair.addr)

/-- The new blocks are of one type and of one length. -/
def Uniform (tree : List P) (blocks : P → MemBlock) : Prop :=
  ∀ p ∈ tree, ∀ q ∈ tree, (blocks p).isNew → (blocks q).isNew →
    (blocks p).typeId = (blocks q).typeId ∧ (blocks p).typeNum = (blocks q).typeNum

section
variable {all : StructAll} {orderId : List (AddrPair P)} {tree : List P} {blocks : P → MemBlock}
variable {start : Nat} {sent : Sent P}

/-- The order_id of a commit, as its receiver builds it. -/
def rebuilt (orderId : List (AddrPair P)) (start : Nat) (sent : Sent P) : Order P :=
  (keptOf sent.delIds (sent.writeIds.map (·.id)) orderId).map keptEntry ++
    ((writtenOf (sent.writeIds.map (·.id)) orderId).zipIdx start).map dumpEntry ++
    createdEntries (start + sent.writeIds.length) sent.newIds

omit [DecidableEq P] in
/-- The pairs of the old blocks stand under the ids of their blocks. -/
theorem Commits.pair_id (commits : Commits orderId tree blocks start sent) {w : AddrPair P}
    (member : w ∈ sent.dels ∨ w ∈ sent.writes) : (sent.blocks w.addr).id = w.id := by
  rw [commits.same w.addr]
  rcases member with member | member
  · obtain ⟨p, _, rfl⟩ := List.mem_map.mp (commits.dels.mem_iff.mp member)
    rfl
  · obtain ⟨p, _, rfl⟩ := List.mem_map.mp (commits.writes.mem_iff.mp member)
    rfl

omit [DecidableEq P] in
theorem Commits.delIds (commits : Commits orderId tree blocks start sent) :
    sent.delIds = sent.dels.map (·.id) :=
  List.map_congr_left fun _ member => commits.pair_id (.inl member)

omit [DecidableEq P] in
theorem Commits.writeIds_id (commits : Commits orderId tree blocks start sent) :
    sent.writeIds.map (·.id) = sent.writes.map (·.id) := by
  rw [Sent.writeIds, List.map_map]
  exact List.map_congr_left fun _ member => commits.pair_id (.inr member)

omit [DecidableEq P] in
theorem Input.rebuilds (input : Input all orderId tree blocks)
    (commits : Commits orderId tree blocks start sent) :
    createNewVersion all orderId false sent.delIds sent.writeIds sent.newIds =
      .ok (rebuilt orderId start sent) := by
  apply createNewVersion_eq
  · rw [commits.delIds, commits.writeIds_id]
    exact commits.plan
  · obtain ⟨p, member, is⟩ := input.wrote
    have inside := commits.writes.mem_iff.mpr
      (List.mem_map_of_mem (f := oldPair blocks) (List.mem_filter.mpr ⟨member, is⟩))
    intro none
    rw [List.map_eq_nil_iff.mp none] at inside
    contradiction
  · exact commits.starts
  · intro first head
    obtain ⟨w, member, rfl⟩ := List.mem_map.mp (List.mem_of_head? head)
    have inside := commits.news ▸ List.mem_map_of_mem (f := AddrPair.addr) member
    have known := input.types w.addr (List.mem_filter.mp inside).1
    have typeId : (sent.blocks w.addr).typeId = (blocks w.addr).typeId := by
      rw [commits.same w.addr]
    have typeNum : (sent.blocks w.addr).typeNum = (blocks w.addr).typeNum := by
      rw [commits.same w.addr]
    simp only [typeId, typeNum]
    simp only [getBlockbufLen] at known
    split at known
    · contradiction
    next lens =>
      obtain ⟨len, points⟩ := not_or.mp lens
      have whole : 0 < all.structLen (blocks w.addr).typeId +
          all.structPointsNum (blocks w.addr).typeId * idOffsetLen := by
        unfold idOffsetLen
        omega
      have many : 0 < (blocks w.addr).typeNum := by
        by_contra few
        have product := Int.mul_nonpos_of_nonpos_of_nonneg (Int.not_lt.mp few) (Int.le_of_lt whole)
        exact Int.not_lt.mpr product known
      exact Int.mul_pos (Int.not_le.mp len) many

omit [DecidableEq P] in
theorem createdEntries_id (start : Nat) (news : List NewIds) :
    (createdEntries (P := P) start news).map (·.id) = List.range' start news.length := by
  cases news with
  | nil => rfl
  | cons first news => simp [createdEntries, Function.comp_def]

omit [DecidableEq P] in
theorem Commits.written (commits : Commits orderId tree blocks start sent) :
    (writtenOf (sent.writeIds.map (·.id)) orderId).map (·.id) = sent.writes.map (·.id) := by
  rw [commits.writeIds_id]
  exact commits.plan.counts.2

omit [DecidableEq P] in
theorem Commits.written_length (commits : Commits orderId tree blocks start sent) :
    (writtenOf (sent.writeIds.map (·.id)) orderId).length = sent.writes.length := by
  have written := congrArg List.length commits.written
  simpa only [List.length_map] using written

omit [DecidableEq P] in
/-- The ids of the rebuilt version: those of the kept blocks, and the new ones in a row. -/
theorem Commits.rebuilt_ids (commits : Commits orderId tree blocks start sent) :
    (rebuilt orderId start sent).map (·.id) =
      (keptOf sent.delIds (sent.writeIds.map (·.id)) orderId).map (·.id) ++
        List.range' start (sent.writes.length + sent.news.length) := by
  have dumps : (((writtenOf (sent.writeIds.map (·.id)) orderId).zipIdx start).map dumpEntry).map
      (·.id) = List.range' start sent.writes.length := by
    rw [List.map_map, ← commits.written_length]
    exact List.zipIdx_map_snd _ _
  have kept : ((keptOf sent.delIds (sent.writeIds.map (·.id)) orderId).map keptEntry).map (·.id) =
      (keptOf sent.delIds (sent.writeIds.map (·.id)) orderId).map (·.id) := by
    rw [List.map_map]
    rfl
  rw [rebuilt, List.map_append, List.map_append, createdEntries_id, dumps, kept, Sent.writeIds,
    Sent.newIds, List.length_map, List.length_map, List.append_assoc, List.range'_append_1]

omit [DecidableEq P] in
theorem Input.rebuilt_ascending (input : Input all orderId tree blocks)
    (commits : Commits orderId tree blocks start sent) :
    (rebuilt orderId start sent).Pairwise (·.id < ·.id) := by
  have ids : ((rebuilt orderId start sent).map (·.id)).Pairwise (· < ·) := by
    rw [commits.rebuilt_ids]
    refine List.pairwise_append.mpr ⟨?_, List.pairwise_lt_range', ?_⟩
    · exact List.pairwise_map.mpr (input.ascending.filter _)
    · intro id member id' member'
      obtain ⟨pair, kept, rfl⟩ := List.mem_map.mp member
      have less := writeIdStart_above input.ascending commits.starts pair
        (List.mem_filter.mp kept).1
      have behind := (List.mem_range'_1.mp member').1
      omega
  exact List.pairwise_map.mp ids

omit [DecidableEq P] in
theorem Input.kept_origins (input : Input all orderId tree blocks)
    (commits : Commits orderId tree blocks start sent) :
    Order.origins blocks
        ((keptOf sent.delIds (sent.writeIds.map (·.id)) orderId).map keptEntry) =
      sent.kept.map fun p => (some (.kept p), (sent.blocks p).id) := by
  rw [commits.kept, commits.delIds, commits.writeIds_id, Order.origins, List.map_map, List.map_map]
  apply List.map_congr_left
  intro pair member
  have id := input.ids pair (List.mem_filter.mp member).1
  have same : (sent.blocks pair.addr).id = pair.id := by
    rw [commits.same pair.addr]
    exact id
  simp [keptEntry, Made.origin, same]

omit [DecidableEq P] in
theorem Input.written_origins (input : Input all orderId tree blocks)
    (commits : Commits orderId tree blocks start sent) :
    Order.origins blocks
        (((writtenOf (sent.writeIds.map (·.id)) orderId).zipIdx start).map dumpEntry) =
      sent.writes.map fun w =>
        (some (.written (sent.blocks w.addr).id), (sent.blocks w.addr).tmpId) := by
  -- both are the written ids, next to the new ones
  have ours : (sent.writes.map fun w =>
      ((some (.written (sent.blocks w.addr).id) : Option (Origin P)), (sent.blocks w.addr).tmpId)) =
        ((sent.writes.map (·.id)).map fun id => some (.written id)).zip
          (List.range' start sent.writes.length) := by
    rw [← commits.writeIds, List.map_map, List.zip_map']
    apply List.map_congr_left
    intro w member
    simp [commits.pair_id (.inr member)]
  have theirs : Order.origins blocks
      (((writtenOf (sent.writeIds.map (·.id)) orderId).zipIdx start).map dumpEntry) =
        ((sent.writes.map (·.id)).map fun id => some (.written id)).zip
          (List.range' start sent.writes.length) := by
    rw [← commits.written, ← commits.written_length, List.map_map, List.zip_map_left,
      ← List.zipIdx_eq_zip_range', Order.origins, List.map_map]
    apply List.map_congr_left
    intro x member
    have inside := List.fst_mem_of_mem_zipIdx member
    have here := input.ids x.1 (List.mem_filter.mp inside).1
    simp only [Function.comp_apply, dumpEntry, Option.map_some, Made.origin, here]
    rfl
  rw [ours, theirs]

/-- The type and the length of a new block, as its origin. -/
def newOrigin (new : NewIds) : Option (Origin P) := some (.new new.typeId new.typeNum)

omit [DecidableEq P] in
theorem Commits.new_origins (commits : Commits orderId tree blocks start sent) :
    (sent.news.map fun w => ((some (.new (sent.blocks w.addr).typeId (sent.blocks w.addr).typeNum) :
      Option (Origin P)), (sent.blocks w.addr).tmpId)) = (sent.newIds.map newOrigin).zip
        (List.range' (start + sent.writes.length) sent.news.length) := by
  rw [← commits.newIds, Sent.newIds, List.map_map, List.zip_map']
  rfl

/-- The origins of the new blocks of the version that is built: all are that of the first. -/
def builtOrigins (news : List NewIds) : List (Option (Origin P)) :=
  List.replicate news.length (news.head?.bind newOrigin)

omit [DecidableEq P] in
variable (blocks) in
theorem created_origins (start : Nat) (news : List NewIds) :
    Order.origins blocks (createdEntries start news) =
      (builtOrigins news).zip (List.range' start news.length) := by
  cases news with
  | nil => rfl
  | cons first news =>
    apply List.ext_getElem
    · simp [createdEntries, Order.origins, builtOrigins]
    · intro i below below'
      simp [createdEntries, Order.origins, builtOrigins, newOrigin, Made.origin]

omit [DecidableEq P] in
theorem builtOrigins_eq_iff (news : List NewIds) :
    builtOrigins (P := P) news = news.map newOrigin ↔
      ∀ x ∈ news, ∀ y ∈ news, x.typeId = y.typeId ∧ x.typeNum = y.typeNum := by
  cases news with
  | nil => simp [builtOrigins]
  | cons first news =>
    have one : builtOrigins (P := P) (first :: news) =
        List.replicate (news.length + 1) (newOrigin first) := rfl
    constructor
    · intro built
      -- each entry has the origin of the first
      have each : ∀ x ∈ first :: news, newOrigin (P := P) x = newOrigin first := by
        rw [one] at built
        intro x member
        exact List.eq_of_mem_replicate (built ▸ List.mem_map_of_mem member)
      intro x member y member'
      have same := (each x member).trans (each y member').symm
      simpa [newOrigin] using same
    · intro uniform
      rw [one, eq_comm]
      apply List.eq_replicate_iff.mpr
      constructor
      · simp
      · intro origin member
        obtain ⟨x, inside, rfl⟩ := List.mem_map.mp member
        obtain ⟨typeId, typeNum⟩ := uniform x inside first List.mem_cons_self
        rw [newOrigin, newOrigin, typeId, typeNum]

omit [DecidableEq P] in
/-- What is built of the new blocks is what was sent when they are of one type. -/
theorem Commits.builtOrigins_iff (commits : Commits orderId tree blocks start sent) :
    builtOrigins (P := P) sent.newIds = sent.newIds.map newOrigin ↔ Uniform tree blocks := by
  have entries : sent.newIds = (tree.filter fun p => (blocks p).isNew).map fun p =>
      ⟨(blocks p).typeId, (blocks p).typeNum, 0⟩ := by
    rw [← commits.news, List.map_map, Sent.newIds]
    apply List.map_congr_left
    intro w _
    simp only [Function.comp_apply]
    rw [commits.same w.addr]
  rw [builtOrigins_eq_iff, entries]
  simp only [List.forall_mem_map, List.mem_filter, and_imp]
  constructor
  · intro same p member q member' isNew isNew'
    exact same p member isNew q member' isNew'
  · intro uniform p member isNew q member' isNew'
    exact uniform p member q member' isNew isNew'

omit [DecidableEq P] in
/-- The new blocks alone tell the two versions apart. -/
theorem Input.origins_iff (input : Input all orderId tree blocks)
    (commits : Commits orderId tree blocks start sent) :
    (rebuilt orderId start sent).origins blocks = sent.origins ↔ Uniform tree blocks := by
  have size : sent.newIds.length = sent.news.length := List.length_map ..
  have wrote : sent.writeIds.length = sent.writes.length := List.length_map ..
  have parts : (rebuilt orderId start sent).origins blocks =
      sent.kept.map (fun p => (some (.kept p), (sent.blocks p).id)) ++
        sent.writes.map (fun w =>
          (some (.written (sent.blocks w.addr).id), (sent.blocks w.addr).tmpId)) ++
        (builtOrigins sent.newIds).zip
          (List.range' (start + sent.writes.length) sent.news.length) := by
    rw [← input.kept_origins commits, ← input.written_origins commits, ← size, ← wrote,
      ← created_origins blocks]
    simp [rebuilt, Order.origins]
  rw [parts, Sent.origins, List.append_cancel_left_eq, commits.new_origins,
    ← commits.builtOrigins_iff]
  constructor
  · intro same
    have unzip := congrArg (List.map Prod.fst) same
    rwa [List.map_fst_zip (by simp [builtOrigins, size]),
      List.map_fst_zip (by simp [size])] at unzip
  · intro same
    rw [same]

omit [DecidableEq P] in
/-- What an entry of the rebuilt version is made of. -/
theorem rebuilt_cases {e : AddrPair (Option (Made P))} (member : e ∈ rebuilt orderId start sent) :
    (∃ pair ∈ keptOf sent.delIds (sent.writeIds.map (·.id)) orderId, e = keptEntry pair) ∨
      (∃ pair ∈ writtenOf (sent.writeIds.map (·.id)) orderId, ∃ id, e = dumpEntry (pair, id)) ∨
      ∃ id typeId typeNum, e = ⟨id, some (.created typeId typeNum)⟩ := by
  rcases List.mem_append.mp member with old | new
  · rcases List.mem_append.mp old with kept | written
    · obtain ⟨pair, inside, rfl⟩ := List.mem_map.mp kept
      exact .inl ⟨pair, inside, rfl⟩
    · obtain ⟨x, inside, rfl⟩ := List.mem_map.mp written
      exact .inr (.inl ⟨x.1, List.fst_mem_of_mem_zipIdx inside, x.2, rfl⟩)
  · cases news : sent.newIds with
    | nil =>
      rw [news] at new
      contradiction
    | cons first rest =>
      rw [news] at new
      obtain ⟨id, _, rfl⟩ := List.mem_map.mp new
      exact .inr (.inr ⟨id, first.typeId, first.typeNum, rfl⟩)

omit [DecidableEq P] in
theorem rebuilt_full : ∀ e ∈ rebuilt orderId start sent, e.addr ≠ none := by
  intro e member
  rcases rebuilt_cases member with ⟨pair, _, rfl⟩ | ⟨pair, _, id, rfl⟩ | ⟨id, typeId, typeNum, rfl⟩
  · simp [keptEntry]
  · simp [dumpEntry]
  · simp

omit [DecidableEq P] in
/-- The blocks of a version have an id each, so an address stands in it once. -/
theorem Input.pair_eq (input : Input all orderId tree blocks) {pair other : AddrPair P}
    (member : pair ∈ orderId) (member' : other ∈ orderId) (same : pair.addr = other.addr) :
    pair = other := by
  obtain ⟨id, addr⟩ := pair
  obtain ⟨id', addr'⟩ := other
  have here := input.ids _ member
  have here' := input.ids _ member'
  dsimp only at same here here'
  subst same
  rw [← here, ← here']

omit [DecidableEq P] in
/-- An id among the changes is that of a block of the tree. -/
theorem Commits.changed (commits : Commits orderId tree blocks start sent) {id : Nat} :
    (id ∈ sent.delIds ↔ ∃ p ∈ tree, (blocks p).isDelete ∧ (blocks p).id = id) ∧
      (id ∈ sent.writeIds.map (·.id) ↔ ∃ p ∈ tree, (blocks p).isWrite ∧ (blocks p).id = id) := by
  rw [commits.delIds, commits.writeIds_id, (commits.dels.map _).mem_iff,
    (commits.writes.map _).mem_iff]
  simp [oldPair, and_assoc]

theorem Input.kept_once (input : Input all orderId tree blocks)
    (commits : Commits orderId tree blocks start sent) {pair : AddrPair P} (member : pair ∈ orderId)
    (unchanged : ∀ p ∈ tree, (blocks p).id ≠ 0 → (blocks p).id ≠ pair.id) :
    ((rebuilt orderId start sent).map (·.addr)).count (some (.kept pair.addr)) = 1 := by
  have kept : pair ∈ keptOf sent.delIds (sent.writeIds.map (·.id)) orderId := by
    apply List.mem_filter.mpr
    refine ⟨member, decide_eq_true ⟨?_, ?_⟩⟩
    · intro del
      obtain ⟨p, inTree, is, same⟩ := commits.changed.1.mp del
      exact unchanged p inTree (isDelete_old _ is) same
    · intro write
      obtain ⟨p, inTree, is, same⟩ := commits.changed.2.mp write
      exact unchanged p inTree (isWrite_old _ is) same
  have inside : keptEntry pair ∈ rebuilt orderId start sent :=
    List.mem_append_left _ (List.mem_append_left _ (List.mem_map_of_mem kept))
  have only : ∀ e ∈ rebuilt orderId start sent, e.addr = some (.kept pair.addr) →
      e = keptEntry pair := by
    intro e member' is
    rcases rebuilt_cases member' with ⟨other, here, rfl⟩ | ⟨other, _, id, rfl⟩ |
      ⟨id, typeId, typeNum, rfl⟩
    · have same : other.addr = pair.addr := by simpa [keptEntry] using is
      rw [input.pair_eq (List.mem_filter.mp here).1 member same]
    · simp [dumpEntry] at is
    · simp at is
  have distinct : (rebuilt orderId start sent).Nodup :=
    (input.rebuilt_ascending commits).imp fun less same => Nat.ne_of_lt less (congrArg _ same)
  rw [List.count, List.countP_map, ← List.count_eq_one_of_mem distinct inside, List.count]
  apply List.countP_congr
  intro e member'
  simp only [Function.comp_apply, beq_iff_eq]
  constructor
  · exact only e member'
  · rintro rfl
    rfl

omit [DecidableEq P] in
theorem Input.deleted_gone (input : Input all orderId tree blocks)
    (commits : Commits orderId tree blocks start sent) {pair : AddrPair P} (member : pair ∈ orderId)
    (deleted : ∃ p ∈ tree, (blocks p).isDelete ∧ (blocks p).id = pair.id) :
    ∀ e ∈ rebuilt orderId start sent,
      e.addr ≠ some (.kept pair.addr) ∧ e.addr ≠ some (.dump pair.addr) := by
  have del := commits.changed.1.mpr deleted
  have write : pair.id ∉ sent.writeIds.map (·.id) := by
    rw [commits.delIds] at del
    rw [commits.writeIds_id]
    exact commits.plan.apart _ del
  intro e member'
  rcases rebuilt_cases member' with ⟨other, here, rfl⟩ | ⟨other, here, id, rfl⟩ |
    ⟨id, typeId, typeNum, rfl⟩
  · obtain ⟨inside, kept⟩ := List.mem_filter.mp here
    refine ⟨fun is => ?_, by simp [keptEntry]⟩
    have same : other.addr = pair.addr := by simpa [keptEntry] using is
    rw [input.pair_eq inside member same] at kept
    exact (of_decide_eq_true kept).1 del
  · obtain ⟨inside, written⟩ := List.mem_filter.mp here
    refine ⟨by simp [dumpEntry], fun is => ?_⟩
    have same : other.addr = pair.addr := by simpa [dumpEntry] using is
    rw [input.pair_eq inside member same] at written
    exact write (of_decide_eq_true written)
  · simp

/-- The version that is built of a commit is the one that was sent when its new blocks are of one
type; the ids, the kept and the deleted blocks agree in any case. -/
theorem Input.agrees_iff (input : Input all orderId tree blocks)
    (commits : Commits orderId tree blocks start sent) :
    Agrees orderId tree blocks sent (rebuilt orderId start sent) ↔ Uniform tree blocks := by
  rw [← input.origins_iff commits]
  constructor
  · intro agrees
    exact agrees.origins
  · intro origins
    exact {
      origins := origins
      full := rebuilt_full
      ascending := input.rebuilt_ascending commits
      kept := fun _ member unchanged => input.kept_once commits member unchanged
      deleted := fun _ member deleted => input.deleted_gone commits member deleted }

theorem commit_rebuilds_iff (input : Input all orderId tree blocks) :
    ∃ sent order, getCommit all orderId tree blocks = some sent ∧
      createNewVersion all orderId false sent.delIds sent.writeIds sent.newIds = .ok order ∧
      (Agrees orderId tree blocks sent order ↔ Uniform tree blocks) := by
  obtain ⟨start, sent, ran, commits⟩ := input.commits
  exact ⟨sent, rebuilt orderId start sent, ran, input.rebuilds commits, input.agrees_iff commits⟩

end

/-- Struct types of eight bytes each, without points. -/
def flatTypes : StructAll := ⟨fun _ => 8, fun _ => 0⟩

/-- A block of a version, the same one written, and two new ones, of the types 5 and `typeId`. -/
def changedBlocks (typeId : Int) : Fin 4 → MemBlock
  | 0 => ⟨1, 1, 64, false, 5, 1⟩
  | 1 => ⟨1, 0, 64, false, 5, 1⟩
  | 2 => ⟨0, 0, 128, false, 5, 1⟩
  | 3 => ⟨0, 0, 192, false, typeId, 1⟩

theorem changedBlocks_input (typeId : Int) :
    Input flatTypes [⟨1, 0⟩] [1, 2, 3] (changedBlocks typeId) where
  ascending := by simp
  ids := by simp [changedBlocks]
  types := by simp [changedBlocks, getBlockbufLen, flatTypes]
  distinct := by decide
  known := by simp [changedBlocks]
  once := by simp [changedBlocks, MemBlock.isNew]
  wrote := ⟨1, by decide, rfl⟩

/-- With new blocks of the types 5 and 5 the two sides agree. -/
theorem commit_rebuilds_uniform : ∃ sent order,
    getCommit flatTypes [⟨1, 0⟩] [1, 2, 3] (changedBlocks 5) = some sent ∧
      createNewVersion flatTypes [⟨1, 0⟩] false sent.delIds sent.writeIds sent.newIds = .ok order ∧
      Agrees [⟨1, 0⟩] [1, 2, 3] (changedBlocks 5) sent order := by
  obtain ⟨sent, order, ran, built, iff⟩ := commit_rebuilds_iff (changedBlocks_input 5)
  refine ⟨sent, order, ran, built, iff.mpr ?_⟩
  intro p member q member' isNew isNew'
  simp only [List.mem_cons, List.not_mem_nil, or_false] at member member'
  rcases member with rfl | rfl | rfl <;> rcases member' with rfl | rfl | rfl <;>
    first | contradiction | exact ⟨rfl, rfl⟩

/-- With new blocks of the types 5 and 7 the receiver makes two of type 5. -/
theorem commit_rebuild_mixes : Input flatTypes [⟨1, 0⟩] [1, 2, 3] (changedBlocks 7) ∧
    ∃ sent order,
      getCommit flatTypes [⟨1, 0⟩] [1, 2, 3] (changedBlocks 7) = some sent ∧
      createNewVersion flatTypes [⟨1, 0⟩] false sent.delIds sent.writeIds sent.newIds =
        .ok order ∧ ¬ Agrees [⟨1, 0⟩] [1, 2, 3] (changedBlocks 7) sent order := by
  have input := changedBlocks_input 7
  obtain ⟨start, sent, ran, commits⟩ := input.commits
  refine ⟨input, sent, _, ran, input.rebuilds commits, ?_⟩
  intro agrees
  have uniform := (input.agrees_iff commits).mp agrees 2 (by decide) 3 (by decide) rfl rfl
  exact absurd uniform.1 (by decide)

end MoonInWater.Sync.Commit
