import MoonInWater.Sync.Commit

/-! The order of the blocks in a commit: get_commit_packet for to_md5 and _create_new_version in
order_id put the kept blocks first, then the written and then the new ones. -/
namespace MoonInWater.Sync.Commit
open Pairs

/-- Some of the entries of an ascending list, in their order. -/
structure Selects (ds xs : List Nat) : Prop where
  ascending : ds.Pairwise (· < ·)
  within : ∀ d ∈ ds, d ∈ xs

section
variable {ds xs : List Nat} {x : Nat}

/-- The first entry of the list is the first one that is selected, or is not selected. -/
theorem Selects.cases (selects : Selects ds (x :: xs)) (ascending : (x :: xs).Pairwise (· < ·)) :
    (∃ rest, ds = x :: rest ∧ Selects rest xs ∧ x ∉ rest) ∨
      (Selects ds xs ∧ x ∉ ds ∧ ∀ d ∈ ds, x < d) := by
  obtain ⟨sorted, within⟩ := selects
  have above : ∀ y ∈ xs, x < y := fun y member => List.rel_of_pairwise_cons ascending member
  cases ds with
  | nil => exact .inr ⟨⟨sorted, by simp⟩, by simp, by simp⟩
  | cons d rest =>
    have later : ∀ y ∈ rest, d < y := fun y member => List.rel_of_pairwise_cons sorted member
    rcases List.mem_cons.mp (within d List.mem_cons_self) with rfl | inside
    · refine .inl ⟨rest, rfl, ⟨sorted.of_cons, fun y member => ?_⟩, ?_⟩
      · have greater := later y member
        rcases List.mem_cons.mp (within y (List.mem_cons_of_mem _ member)) with rfl | inside
        · exact absurd greater (Nat.lt_irrefl _)
        · exact inside
      · intro member
        exact Nat.lt_irrefl _ (later d member)
    · have all : ∀ y ∈ d :: rest, x < y := by
        intro y member
        rcases List.mem_cons.mp member with rfl | behind
        · exact above y inside
        · exact Nat.lt_trans (above d inside) (later y behind)
      refine .inr ⟨⟨sorted, fun y member => ?_⟩, fun member => ?_, all⟩
      · rcases List.mem_cons.mp (within y member) with rfl | inside
        · exact absurd (all y member) (Nat.lt_irrefl _)
        · exact inside
      · exact Nat.lt_irrefl _ (all x member)

end

variable {P : Type}

/-- The blocks of a version that are neither deleted nor written. -/
def keptOf (dels writes : List Nat) (base : List (AddrPair P)) : List (AddrPair P) :=
  base.filter fun pair => decide (pair.id ∉ dels ∧ pair.id ∉ writes)

def writtenOf (writes : List Nat) (base : List (AddrPair P)) : List (AddrPair P) :=
  base.filter fun pair => decide (pair.id ∈ writes)

/-- The deleted and the written ids of a version. -/
structure Plan (dels writes : List Nat) (base : List (AddrPair P)) : Prop where
  ascending : (base.map (·.id)).Pairwise (· < ·)
  selectsDels : Selects dels (base.map (·.id))
  selectsWrites : Selects writes (base.map (·.id))
  apart : ∀ d ∈ dels, d ∉ writes

/-- What becomes of the first block of a version. -/
inductive Plan.First (pair : AddrPair P) (base : List (AddrPair P)) :
    List Nat → List Nat → Prop where
  | del (rest : Plan dels writes base) (unwritten : ∀ w ∈ writes, pair.id < w)
      (kept : keptOf (pair.id :: dels) writes (pair :: base) = keptOf dels writes base)
      (written : writtenOf writes (pair :: base) = writtenOf writes base) :
      First pair base (pair.id :: dels) writes
  | write (rest : Plan dels writes base) (undeleted : ∀ d ∈ dels, pair.id < d)
      (kept : keptOf dels (pair.id :: writes) (pair :: base) = keptOf dels writes base)
      (written : writtenOf (pair.id :: writes) (pair :: base) = pair :: writtenOf writes base) :
      First pair base dels (pair.id :: writes)
  | keep (rest : Plan dels writes base) (undeleted : ∀ d ∈ dels, pair.id < d)
      (unwritten : ∀ w ∈ writes, pair.id < w)
      (kept : keptOf dels writes (pair :: base) = pair :: keptOf dels writes base)
      (written : writtenOf writes (pair :: base) = writtenOf writes base) :
      First pair base dels writes

section
variable {base : List (AddrPair P)} {pair : AddrPair P} {dels writes : List Nat}

theorem keptOf_congr {dels' writes' : List Nat}
    (same : ∀ p ∈ base, (p.id ∈ dels' ↔ p.id ∈ dels) ∧ (p.id ∈ writes' ↔ p.id ∈ writes)) :
    keptOf dels' writes' base = keptOf dels writes base := by
  apply List.filter_congr
  intro p member
  obtain ⟨d, w⟩ := same p member
  simp only [d, w]

theorem writtenOf_congr {writes' : List Nat} (same : ∀ p ∈ base, p.id ∈ writes' ↔ p.id ∈ writes) :
    writtenOf writes' base = writtenOf writes base := by
  apply List.filter_congr
  intro p member
  simp only [same p member]

theorem Plan.first (plan : Plan dels writes (pair :: base)) :
    Plan.First pair base dels writes := by
  obtain ⟨ascending, selDels, selWrites, apart⟩ := plan
  have above : ∀ p ∈ base, p.id ≠ pair.id := by
    intro p member
    have less := List.rel_of_pairwise_cons ascending (List.mem_map_of_mem (f := (·.id)) member)
    exact Nat.ne_of_gt less
  rcases selDels.cases ascending with ⟨ds, rfl, restDels, _⟩ | ⟨restDels, outDels, less⟩
  · have outWrites := apart pair.id List.mem_cons_self
    rcases selWrites.cases ascending with ⟨ws, rfl, _⟩ | ⟨restWrites, _, unwritten⟩
    · exact absurd List.mem_cons_self outWrites
    · refine .del ⟨ascending.of_cons, restDels, restWrites, fun d member =>
        apart d (List.mem_cons_of_mem _ member)⟩ unwritten ?_ ?_
      · rw [keptOf, List.filter_cons_of_neg (by simp)]
        apply keptOf_congr
        intro p member
        simp [above p member]
      · exact List.filter_cons_of_neg (by simpa using outWrites)
  · rcases selWrites.cases ascending with ⟨ws, rfl, restWrites, _⟩ | ⟨restWrites, outWrites, less'⟩
    · refine .write ⟨ascending.of_cons, restDels, restWrites, fun d member inside =>
        apart d member (List.mem_cons_of_mem _ inside)⟩ less ?_ ?_
      · rw [keptOf, List.filter_cons_of_neg (by simp)]
        apply keptOf_congr
        intro p member
        simp [above p member]
      · rw [writtenOf, List.filter_cons_of_pos (by simp)]
        congr 1
        apply writtenOf_congr
        intro p member
        simp [above p member]
    · refine .keep ⟨ascending.of_cons, restDels, restWrites, apart⟩ less less' ?_ ?_
      · exact List.filter_cons_of_pos (by simpa using ⟨outDels, outWrites⟩)
      · exact List.filter_cons_of_neg (by simpa using outWrites)

theorem Plan.ended (plan : Plan dels writes ([] : List (AddrPair P))) : dels = [] ∧ writes = [] :=
  ⟨List.eq_nil_iff_forall_not_mem.mpr fun d member => by
      simpa using plan.selectsDels.within d member,
    List.eq_nil_iff_forall_not_mem.mpr fun w member => by
      simpa using plan.selectsWrites.within w member⟩

theorem head_ne {id : Nat} {ds : List Nat} (less : ∀ d ∈ ds, id < d) : ds.head? ≠ some id := by
  intro here
  exact Nat.lt_irrefl _ (less id (List.mem_of_head? here))

/-- The merge of get_commit_packet for to_md5. -/
theorem md5Kept_eq [DecidableEq P] {blocks : P → MemBlock} {delPairs writePairs : List (AddrPair P)}
    (ids : ∀ p ∈ base, (blocks p.addr).id = p.id)
    (plan : Plan (delPairs.map (·.id)) (writePairs.map (·.id)) base) :
    md5Kept blocks base delPairs writePairs =
      (keptOf (delPairs.map (·.id)) (writePairs.map (·.id)) base).map (·.addr) := by
  induction base generalizing delPairs writePairs with
  | nil => rfl
  | cons pair base ih =>
    have id := ids pair List.mem_cons_self
    have ids := fun p member => ids p (List.mem_cons_of_mem _ member)
    have first := plan.first
    generalize dels : delPairs.map (·.id) = ds at first
    generalize writes : writePairs.map (·.id) = ws at first
    cases first with
    | del rest unwritten kept written =>
      obtain ⟨d, delPairs, rfl, same, rfl⟩ := List.map_eq_cons_iff.mp dels
      subst writes
      rw [md5Kept, if_pos (by simp [id, same]), kept]
      exact ih ids rest
    | write rest undeleted kept written =>
      obtain ⟨w, writePairs, rfl, same, rfl⟩ := List.map_eq_cons_iff.mp writes
      subst dels
      have other : delPairs.head?.map (·.id) ≠ some pair.id := by
        rw [← List.head?_map]
        exact head_ne undeleted
      rw [md5Kept, id, if_neg other, if_pos (by simp [same]), kept]
      exact ih ids rest
    | keep rest undeleted unwritten kept written =>
      subst dels writes
      have other : delPairs.head?.map (·.id) ≠ some pair.id := by
        rw [← List.head?_map]
        exact head_ne undeleted
      have other' : writePairs.head?.map (·.id) ≠ some pair.id := by
        rw [← List.head?_map]
        exact head_ne unwritten
      rw [md5Kept, id, if_neg other, if_neg other', kept, List.map_cons, ih ids rest]


/-- A place of order_id that is not stored yet. -/
def zero : AddrPair (Option (Made P)) := ⟨0, none⟩

def keptEntry (pair : AddrPair P) : AddrPair (Option (Made P)) := ⟨pair.id, some (.kept pair.addr)⟩

def dumpEntry (x : AddrPair P × Nat) : AddrPair (Option (Made P)) := ⟨x.2, some (.dump x.1.addr)⟩

theorem store_at (pre post : Order P) {i : Nat} (id : Nat) (made : Made P)
    (place : i = pre.length) :
    store (pre ++ zero :: post) i id made = .ok (pre ++ ⟨id, some made⟩ :: post) := by
  rw [store, if_pos (by simp [place]), set_at place]

theorem turn_keep {id : Nat} {ds : List Nat} {ws : List WriteIds} (undeleted : ∀ d ∈ ds, id < d)
    (unwritten : ∀ w ∈ ws.map (·.id), id < w) : turn id ds ws = .keep := by
  have writeKeeps : turn id [] ws = .keep := by
    cases ws with
    | nil => rfl
    | cons w ws =>
      have less := unwritten w.id (by simp)
      simp only [turn]
      rw [if_neg (by omega), if_neg (by omega)]
  cases ds with
  | nil => exact writeKeeps
  | cons d ds =>
    have less := undeleted d List.mem_cons_self
    simp only [turn] at writeKeeps ⊢
    rw [if_neg (by omega), if_neg (by omega)]
    exact writeKeeps

theorem turn_write {ds : List Nat} {w : WriteIds} {ws : List WriteIds}
    (undeleted : ∀ d ∈ ds, w.id < d) : turn w.id ds (w :: ws) = .write := by
  cases ds with
  | nil => simp [turn]
  | cons d ds =>
    have less := undeleted d List.mem_cons_self
    simp only [turn]
    rw [if_neg (by omega), if_neg (by omega)]
    simp

theorem turn_del {d : Nat} {ds : List Nat} {ws : List WriteIds} : turn d (d :: ds) ws = .del := by
  simp [turn]

/-- The ids of the written blocks from the `k`-th on. -/
def dumpIds (ix : Indexes) (k : Nat) (writes : List WriteIds) : List Nat :=
  if ix.hasNewId then writes.map (·.newId) else List.range' (ix.writeIdStart + k) writes.length

/-- The ids of the new blocks from the `i`-th on. -/
def createdIds (ix : Indexes) (first : NewIds) (i : Nat) (news : List NewIds) : List Nat :=
  if ix.hasNewId then List.replicate news.length first.id
  else List.range' (ix.newIdStart + i) news.length

@[simp] theorem dumpIds_nil (ix : Indexes) (k : Nat) : dumpIds ix k [] = [] := by
  simp [dumpIds]

@[simp] theorem createdIds_nil (ix : Indexes) (first : NewIds) (i : Nat) :
    createdIds ix first i [] = [] := by
  simp [createdIds]

theorem dumpIds_length (ix : Indexes) (k : Nat) (writes : List WriteIds) :
    (dumpIds ix k writes).length = writes.length := by
  unfold dumpIds
  split <;> simp

theorem dumpIds_cons (ix : Indexes) (k : Nat) (w : WriteIds) (writes : List WriteIds) :
    dumpIds ix k (w :: writes) =
      (if ix.hasNewId then w.newId else ix.writeIdStart + k) :: dumpIds ix (k + 1) writes := by
  unfold dumpIds
  cases ix.hasNewId
  · simp [List.range'_succ, Nat.add_assoc]
  · simp

theorem createdIds_cons (ix : Indexes) (first : NewIds) (i : Nat) (new : NewIds)
    (news : List NewIds) :
    createdIds ix first i (new :: news) =
      (if ix.hasNewId then first.id else ix.newIdStart + i) ::
        createdIds ix first (i + 1) news := by
  unfold createdIds
  cases ix.hasNewId
  · simp [List.range'_succ, Nat.add_assoc]
  · simp [List.replicate_succ]

/-- The kept and the written blocks go to their parts of order_id. -/
theorem mergeBase_eq {ix : Indexes} {writeIds : List WriteIds} (pre mid post : Order P) {room : Nat}
    (plan : Plan dels (writeIds.map (·.id)) base)
    (fits : room = (keptOf dels (writeIds.map (·.id)) base).length)
    (index : ix.writeIndex = pre.length + room) :
    mergeBase ix base dels writeIds mid.length pre.length
      (pre ++ List.replicate room zero ++ mid ++ List.replicate writeIds.length zero ++ post) =
        .ok (pre ++ (keptOf dels (writeIds.map (·.id)) base).map keptEntry ++ mid ++
          ((writtenOf (writeIds.map (·.id)) base).zip (dumpIds ix mid.length writeIds)).map
            dumpEntry ++ post) := by
  induction base generalizing dels writeIds pre mid room with
  | nil =>
    obtain ⟨rfl, none⟩ := plan.ended
    obtain rfl := List.map_eq_nil_iff.mp none
    simp [mergeBase, keptOf, writtenOf, fits]
  | cons pair base ih =>
    have first := plan.first
    generalize same : writeIds.map (·.id) = ws at first
    cases first with
    | del rest unwritten kept written =>
      subst same
      rw [mergeBase, turn_del]
      simp only [List.tail_cons]
      rw [kept, written]
      exact ih pre mid rest (kept ▸ fits) index
    | write rest undeleted kept written =>
      obtain ⟨w, writeIds, rfl, here, rfl⟩ := List.map_eq_cons_iff.mp same
      have shape : pre ++ List.replicate room zero ++ mid ++
          List.replicate (w :: writeIds).length zero ++ post =
            (pre ++ List.replicate room zero ++ mid) ++
              zero :: (List.replicate writeIds.length zero ++ post) := by
        simp [List.replicate_succ]
      generalize id : (if ix.hasNewId then w.newId else ix.writeIdStart + mid.length) = writeId
      have stored := store_at (pre ++ List.replicate room zero ++ mid)
        (List.replicate writeIds.length zero ++ post) (i := ix.writeIndex + mid.length)
        writeId (.dump pair.addr) (by simp [index, Nat.add_assoc])
      have turns : turn pair.id dels (w :: writeIds) = .write := by
        rw [← here] at undeleted ⊢
        exact turn_write undeleted
      have next := ih pre (mid ++ [⟨writeId, some (.dump pair.addr)⟩]) rest
        (by rw [fits, same, kept]) index
      rw [mergeBase, turns, shape, dumpIds_cons, id]
      simp only [List.head?_cons, Option.map_some, Option.getD_some, id, stored, bind, Except.bind,
        List.tail_cons]
      rw [kept, written]
      simp only [List.length_append, List.length_singleton] at next
      simpa [dumpEntry] using next
    | keep rest undeleted unwritten kept written =>
      subst same
      rw [kept, List.length_cons] at fits
      subst fits
      have shape : pre ++
          List.replicate ((keptOf dels (writeIds.map (·.id)) base).length + 1) zero ++ mid ++
            List.replicate writeIds.length zero ++ post = pre ++ zero ::
            (List.replicate (keptOf dels (writeIds.map (·.id)) base).length zero ++ mid ++
              List.replicate writeIds.length zero ++ post) := by
        simp [List.replicate_succ]
      have stored := store_at pre
        (List.replicate (keptOf dels (writeIds.map (·.id)) base).length zero ++ mid ++
          List.replicate writeIds.length zero ++ post) pair.id (.kept pair.addr) rfl
      have next := ih (pre ++ [keptEntry pair]) mid rest rfl
        (by simp [index]; omega)
      rw [mergeBase, turn_keep undeleted unwritten, shape]
      simp only [stored, bind, Except.bind]
      rw [kept, written]
      simp only [List.length_append, List.length_singleton] at next
      simpa [keptEntry] using next

theorem createNews_eq {all : StructAll} (ix : Indexes) {first : NewIds} (news : List NewIds)
    (pre : Order P) (i : Nat) (valid : 0 < all.structLen first.typeId * first.typeNum)
    (index : ix.newIndex + i = pre.length) :
    createNews all ix first news i (pre ++ List.replicate news.length zero) =
      .ok (pre ++ (createdIds ix first i news).map fun id =>
        ⟨id, some (.created first.typeId first.typeNum)⟩) := by
  induction news generalizing pre i with
  | nil => simp [createNews]
  | cons new news ih =>
    generalize id : (if ix.hasNewId then first.id else ix.newIdStart + i) = newId
    have stored := store_at pre (List.replicate news.length zero) newId
      (.created first.typeId first.typeNum) index
    have next := ih (pre ++ [⟨newId, some (.created first.typeId first.typeNum)⟩])
      (i + 1) (by simp [← index, Nat.add_assoc])
    have made : createNewBlock all first.typeId first.typeNum =
        some (.created (P := P) first.typeId first.typeNum) := if_neg (by omega)
    simp only [createNews, made, id, List.length_cons, List.replicate_succ, stored, bind,
      Except.bind]
    rw [createdIds_cons, id]
    simpa using next

theorem Plan.counts (plan : Plan dels writes base) :
    (keptOf dels writes base).length + dels.length + writes.length = base.length ∧
      (writtenOf writes base).map (·.id) = writes := by
  induction base generalizing dels writes with
  | nil =>
    obtain ⟨rfl, rfl⟩ := plan.ended
    exact ⟨rfl, rfl⟩
  | cons pair base ih =>
    have first := plan.first
    cases first with
    | del rest unwritten kept written =>
      obtain ⟨count, ids⟩ := ih rest
      rw [kept, written, List.length_cons, List.length_cons]
      exact ⟨by omega, ids⟩
    | write rest undeleted kept written =>
      obtain ⟨count, ids⟩ := ih rest
      rw [kept, written, List.length_cons, List.length_cons, List.map_cons, ids]
      exact ⟨by omega, rfl⟩
    | keep rest undeleted unwritten kept written =>
      obtain ⟨count, ids⟩ := ih rest
      rw [kept, written, List.length_cons, List.length_cons]
      exact ⟨by omega, ids⟩

/-- The entries of the new blocks, all of them made of the first. -/
def createdEntries (start : Nat) (news : List NewIds) : Order P :=
  match news with
  | [] => []
  | first :: _ => (List.range' start news.length).map fun id =>
    ⟨id, some (.created first.typeId first.typeNum)⟩

theorem writeIdStart_above (ascending : base.Pairwise (·.id < ·.id))
    (starts : writeIdStart base = some start) : ∀ pair ∈ base, pair.id < start := by
  obtain ⟨last, ends, rfl⟩ := Option.map_eq_some_iff.mp starts
  obtain ⟨front, rfl⟩ := List.getLast?_eq_some_iff.mp ends
  intro pair member
  rcases List.mem_append.mp member with before | here
  · have less := (List.pairwise_append.mp ascending).2.2 pair before last (by simp)
    omega
  · rw [List.mem_singleton.mp here]
    omega

theorem qsort_sorts (pairs : List (AddrPair P)) :
    ∃ sorted, qsort pairs = some sorted ∧ sorted.Perm pairs ∧ sorted.Pairwise (·.id ≤ ·.id) := by
  obtain ⟨sorted, ran, facts⟩ :=
    qsortAddrPair_sorts [] [] pairs (Nat.lt_succ_self pairs.length)
  simp only [List.length_nil, List.nil_append, List.append_nil] at ran
  exact ⟨sorted, ran, facts⟩

/-- The indexes for a version with `kept` kept and `writes` written blocks. -/
def indexesOf (hasNewId : Bool) (start kept writes : Nat) : Indexes :=
  ⟨hasNewId, start, start + writes, kept, kept + writes⟩

/-- order_id as _create_new_version fills it, before it is sorted; with new_index. -/
def createOrder (all : StructAll) (orderId : List (AddrPair P)) (hasNewId : Bool)
    (dels : List Nat) (writes : List WriteIds) (news : List NewIds) :
    Except Failure (Order P × Nat) :=
  match writeIdStart orderId with
  | none => .error .outside
  | some start =>
    if writes.length = 0 then .error .packetError
    else
      let n : Int := orderId.length + news.length - dels.length
      let m := writes.length + dels.length
      if n < 0 ∨ orderId.length < m then .error .packetError
      else do
        let ix := indexesOf hasNewId start (orderId.length - m) writes.length
        let order ← mergeBase ix orderId dels writes 0 0 (List.replicate n.toNat ⟨0, none⟩)
        let order ←
          match news with
          | [] => .ok order
          | first :: _ => createNews all ix first news 0 order
        .ok (order, ix.newIndex)

/-- _create_new_version sorts the order of a packet that brings its own ids. -/
theorem createNewVersion_ok {all : StructAll} {hasNewId : Bool} {writeIds : List WriteIds}
    {news : List NewIds} {final : Order P} :
    createNewVersion all base hasNewId dels writeIds news = .ok final ↔
      ∃ made, createOrder all base hasNewId dels writeIds news = .ok made ∧
        if hasNewId then qsort made.1 = some final else made.1 = final := by
  unfold createNewVersion createOrder indexesOf qsort
  cases writeIdStart base with
  | none => simp
  | some start =>
    simp only
    split
    · simp
    split
    · simp
    generalize mergeBase _ base dels writeIds 0 0 _ = merged
    cases merged with
    | error failure => simp [bind, Except.bind]
    | ok order =>
      cases news with
      | nil => cases hasNewId with
        | false => simp [bind, Except.bind]
        | true =>
          simp only [bind, Except.bind, if_true]
          cases sorted : qsortAddrPair (order.length + 1) 0 order.length order <;> simp [sorted]
      | cons first news =>
        simp only [bind, Except.bind]
        generalize createNews all _ first (first :: news) 0 order = created
        cases created with
        | error failure => simp
        | ok order => cases hasNewId with
          | false => simp
          | true =>
            simp only [if_true]
            cases sorted : qsortAddrPair (order.length + 1) 0 order.length order <;> simp [sorted]

/-- The new blocks in order_id. -/
def createdOf (ix : Indexes) (news : List NewIds) : Order P :=
  match news with
  | [] => []
  | first :: _ => (createdIds ix first 0 news).map fun id =>
    ⟨id, some (.created first.typeId first.typeNum)⟩

/-- What is in order_id: the kept blocks, the written and the new ones. -/
theorem createOrder_eq {all : StructAll} {writeIds : List WriteIds} {news : List NewIds}
    {start : Nat} {hasNewId : Bool} (plan : Plan dels (writeIds.map (·.id)) base)
    (wrote : writeIds ≠ []) (starts : writeIdStart base = some start)
    (valid : ∀ first ∈ news.head?, 0 < all.structLen first.typeId * first.typeNum) {ix : Indexes}
    (indexes : indexesOf hasNewId start (keptOf dels (writeIds.map (·.id)) base).length
      writeIds.length = ix) :
    createOrder all base hasNewId dels writeIds news =
      .ok ((keptOf dels (writeIds.map (·.id)) base).map keptEntry ++
        ((writtenOf (writeIds.map (·.id)) base).zip (dumpIds ix 0 writeIds)).map dumpEntry ++
        createdOf ix news, ix.newIndex) := by
  obtain ⟨count, ids⟩ := plan.counts
  generalize kept : keptOf dels (writeIds.map (·.id)) base = keptPairs at count indexes ⊢
  rw [List.length_map] at count
  have size : ((base.length : Int) + news.length - dels.length).toNat =
      keptPairs.length + (writeIds.length + news.length) := by omega
  have place : base.length - (writeIds.length + dels.length) = keptPairs.length := by omega
  have blank : List.replicate (keptPairs.length + (writeIds.length + news.length)) ⟨0, none⟩ =
      ([] : Order P) ++ List.replicate keptPairs.length zero ++ [] ++
        List.replicate writeIds.length zero ++ List.replicate news.length zero := by
    rw [← List.replicate_append_replicate, ← List.replicate_append_replicate]
    simp [zero, Nat.add_assoc]
  have index : ix.writeIndex = ([] : Order P).length + keptPairs.length := by
    rw [← indexes]
    exact (Nat.zero_add _).symm
  have merged := mergeBase_eq [] [] (List.replicate news.length zero) plan
    (congrArg List.length kept).symm index
  simp only [kept, List.length_nil, List.nil_append, List.append_nil] at merged
  simp only [createOrder, starts, size, place, blank, indexes]
  rw [if_neg (by simpa using wrote), if_neg (by omega), List.nil_append, List.append_nil, merged]
  simp only [bind, Except.bind]
  cases news with
  | nil => simp [createdOf]
  | cons first news =>
    have index : ix.newIndex + 0 = (keptPairs.map keptEntry ++
        ((writtenOf (writeIds.map (·.id)) base).zip (dumpIds ix 0 writeIds)).map
          dumpEntry).length := by
      have written := congrArg List.length ids
      simp only [List.length_map] at written
      simp [← indexes, indexesOf, written, dumpIds_length]
    have made := createNews_eq ix (first :: news) _ 0 (valid first rfl) index
    dsimp only
    rw [made]
    rfl

/-- What _create_new_version makes of the lists of a commit. -/
theorem createNewVersion_eq {all : StructAll} {writeIds : List WriteIds} {news : List NewIds}
    {start : Nat} (plan : Plan dels (writeIds.map (·.id)) base) (wrote : writeIds ≠ [])
    (starts : writeIdStart base = some start)
    (valid : ∀ first ∈ news.head?, 0 < all.structLen first.typeId * first.typeNum) :
    createNewVersion all base false dels writeIds news =
      .ok ((keptOf dels (writeIds.map (·.id)) base).map keptEntry ++
        ((writtenOf (writeIds.map (·.id)) base).zipIdx start).map dumpEntry ++
        createdEntries (start + writeIds.length) news) := by
  refine createNewVersion_ok.mpr ⟨_, createOrder_eq plan wrote starts valid rfl, ?_⟩
  have size := congrArg List.length plan.counts.2
  rw [List.length_map, List.length_map] at size
  have created : createdOf (P := P) (indexesOf false start
      (keptOf dels (writeIds.map (·.id)) base).length writeIds.length) news =
        createdEntries (start + writeIds.length) news := by
    cases news <;> rfl
  simp only [Bool.false_eq_true, if_false, created]
  congr 3
  rw [List.zipIdx_eq_zip_range', size]
  rfl

end
end MoonInWater.Sync.Commit
