import MoonInWater.Sync.CommitOrder
import MoonInWater.Lib.CInt

/-! The packets that _create_new_version accepts: their lists are those of a plan, and every new
block is made of the first entry of the list. -/
namespace MoonInWater.Sync.Commit
open Pairs CInt
variable {P : Type}

section
variable {base : List (AddrPair P)} {pair : AddrPair P} {dels writes ds xs : List Nat} {x id : Nat}
variable {writeIds : List WriteIds}

theorem Selects.above (selects : Selects ds xs) (ascending : (x :: xs).Pairwise (· < ·)) :
    ∀ d ∈ ds, x < d := fun _ member =>
  List.rel_of_pairwise_cons ascending (selects.within _ member)

theorem Selects.skip (selects : Selects ds xs) : Selects ds (x :: xs) :=
  ⟨selects.ascending, fun d member => List.mem_cons_of_mem _ (selects.within d member)⟩

theorem Selects.take (selects : Selects ds xs) (ascending : (x :: xs).Pairwise (· < ·)) :
    Selects (x :: ds) (x :: xs) where
  ascending := List.pairwise_cons.mpr ⟨selects.above ascending, selects.ascending⟩
  within d member := by
    rcases List.mem_cons.mp member with rfl | later
    · exact List.mem_cons_self
    · exact selects.skip.within d later

section
variable (plan : Plan dels writes base) (ascending : ((pair :: base).map (·.id)).Pairwise (· < ·))
include plan ascending

theorem Plan.skip : Plan dels writes (pair :: base) :=
  ⟨ascending, plan.selectsDels.skip, plan.selectsWrites.skip, plan.apart⟩

theorem Plan.delete : Plan (pair.id :: dels) writes (pair :: base) where
  ascending := ascending
  selectsDels := plan.selectsDels.take ascending
  selectsWrites := plan.selectsWrites.skip
  apart d member inside := by
    rcases List.mem_cons.mp member with rfl | later
    · exact Nat.lt_irrefl _ (plan.selectsWrites.above ascending _ inside)
    · exact plan.apart d later inside

theorem Plan.rewrite : Plan dels (pair.id :: writes) (pair :: base) where
  ascending := ascending
  selectsDels := plan.selectsDels.skip
  selectsWrites := plan.selectsWrites.take ascending
  apart d member inside := by
    rcases List.mem_cons.mp inside with rfl | later
    · exact Nat.lt_irrefl _ (plan.selectsDels.above ascending _ member)
    · exact plan.apart d member later

end

/-- What a turn does with a block of the base, as the lists of ids go. -/
theorem turn_cases (id : Nat) (dels : List Nat) (writeIds : List WriteIds) :
    turn id dels writeIds = .illegal ∨ turn id dels writeIds = .keep ∨
      (turn id dels writeIds = .del ∧ ∃ rest, dels = id :: rest) ∨
      (turn id dels writeIds = .write ∧ ∃ w rest, writeIds = w :: rest ∧ w.id = id) := by
  have undeleted : turn id [] writeIds = .illegal ∨ turn id [] writeIds = .keep ∨
      (turn id [] writeIds = .write ∧ ∃ w rest, writeIds = w :: rest ∧ w.id = id) := by
    cases writeIds with
    | nil => exact .inr (.inl rfl)
    | cons w writeIds =>
      simp only [turn]
      split
      · exact .inl rfl
      split
      next same => exact .inr (.inr ⟨rfl, w, writeIds, rfl, same⟩)
      · exact .inr (.inl rfl)
  have behind : turn id [] writeIds = .illegal ∨ turn id [] writeIds = .keep ∨
      (turn id [] writeIds = .del ∧ ∃ rest, dels = id :: rest) ∨
      (turn id [] writeIds = .write ∧ ∃ w rest, writeIds = w :: rest ∧ w.id = id) := by
    rcases undeleted with is | is | is
    · exact .inl is
    · exact .inr (.inl is)
    · exact .inr (.inr (.inr is))
  cases dels with
  | nil => exact behind
  | cons d dels =>
    have split : turn id (d :: dels) writeIds =
        if d < id then .illegal else if d = id then .del else turn id [] writeIds := rfl
    rw [split]
    by_cases less : d < id
    · rw [if_pos less]
      exact .inl rfl
    by_cases same : d = id
    · rw [if_neg less, if_pos same]
      exact .inr (.inr (.inl ⟨rfl, dels, by rw [same]⟩))
    · rw [if_neg less, if_neg same]
      exact behind

/-- A base that is merged without an error has the ids of the lists, in their order. -/
theorem mergeBase_plan {ix : Indexes} {k n : Nat} {order order' : Order P}
    (ran : mergeBase ix base dels writeIds k n order = .ok order')
    (ascending : (base.map (·.id)).Pairwise (· < ·)) :
    Plan dels (writeIds.map (·.id)) base := by
  induction base generalizing dels writeIds k n order with
  | nil =>
    rw [mergeBase] at ran
    split at ran
    next ended =>
      obtain ⟨rfl, none⟩ := ended
      obtain rfl := List.eq_nil_of_length_eq_zero none
      exact ⟨ascending, ⟨.nil, by simp⟩, ⟨.nil, by simp⟩, by simp⟩
    · cases ran
  | cons pair base ih =>
    have ih := fun {dels writeIds k n order}
      (ran : mergeBase ix base dels writeIds k n order = .ok order') => ih ran ascending.of_cons
    rcases turn_cases pair.id dels writeIds with is | is | ⟨is, rest, rfl⟩ |
      ⟨is, w, rest, rfl, same⟩
    all_goals simp only [mergeBase, is] at ran
    · cases ran
    · generalize store order n pair.id (.kept pair.addr) = stored at ran
      cases stored with
      | error failure => cases ran
      | ok stored => exact (ih ran).skip ascending
    · exact (ih ran).delete ascending
    · generalize store order _ _ (.dump pair.addr) = stored at ran
      cases stored with
      | error failure => cases ran
      | ok stored =>
        rw [List.map_cons, same]
        exact (ih ran).rewrite ascending

/-- The lists of a packet whose order is made. -/
theorem createOrder_plan {all : StructAll} {hasNewId : Bool} {news : List NewIds}
    {made : Order P × Nat} (ran : createOrder all base hasNewId dels writeIds news = .ok made)
    (ascending : (base.map (·.id)).Pairwise (· < ·)) :
    Plan dels (writeIds.map (·.id)) base ∧ writeIds ≠ [] ∧
      (∃ start, writeIdStart base = some start) ∧
      ∀ first ∈ news.head?, 0 < all.structLen first.typeId * first.typeNum := by
  unfold createOrder at ran
  cases starts : writeIdStart base with
  | none => simp [starts] at ran
  | some start =>
    simp only [starts] at ran
    split at ran
    · cases ran
    next wrote =>
      split at ran
      · cases ran
      generalize merged : mergeBase _ base dels writeIds 0 0 _ = result at ran
      cases result with
      | error failure => cases ran
      | ok order =>
        refine ⟨mergeBase_plan merged ascending, by simpa using wrote, ⟨start, rfl⟩, ?_⟩
        intro first head
        cases news with
        | nil => cases head
        | cons new news =>
          cases head
          by_contra small
          simp [bind, Except.bind, createNews, createNewBlock, Int.not_lt.mp small] at ran

/-- The order that _create_new_version makes of its parts. -/
def parts (ix : Indexes) (base : List (AddrPair P)) (dels : List Nat) (writeIds : List WriteIds)
    (news : List NewIds) : Order P :=
  (keptOf dels (writeIds.map (·.id)) base).map keptEntry ++
    ((writtenOf (writeIds.map (·.id)) base).zip (dumpIds ix 0 writeIds)).map dumpEntry ++
    createdOf ix news

theorem createOrder_parts {all : StructAll} {hasNewId : Bool} {news : List NewIds}
    {made : Order P × Nat} (ran : createOrder all base hasNewId dels writeIds news = .ok made)
    (ascending : (base.map (·.id)).Pairwise (· < ·)) :
    Plan dels (writeIds.map (·.id)) base ∧ ∃ start, writeIdStart base = some start ∧
      made = (parts (indexesOf hasNewId start (keptOf dels (writeIds.map (·.id)) base).length
          writeIds.length) base dels writeIds news,
        (keptOf dels (writeIds.map (·.id)) base).length + writeIds.length) := by
  obtain ⟨plan, wrote, ⟨start, starts⟩, valid⟩ := createOrder_plan ran ascending
  refine ⟨plan, start, starts, ?_⟩
  rw [createOrder_eq plan wrote starts valid rfl] at ran
  exact (Except.ok.inj ran).symm

theorem parts_ids {ix : Indexes} {news : List NewIds}
    (plan : Plan dels (writeIds.map (·.id)) base) :
    (parts ix base dels writeIds news).map (·.id) =
      (keptOf dels (writeIds.map (·.id)) base).map (·.id) ++ dumpIds ix 0 writeIds ++
        (createdOf (P := P) ix news).map (·.id) := by
  have written := congrArg List.length plan.counts.2
  rw [List.length_map, List.length_map] at written
  have size : (dumpIds ix 0 writeIds).length ≤ (writtenOf (writeIds.map (·.id)) base).length := by
    rw [dumpIds_length, written]
  have dumps : (((writtenOf (writeIds.map (·.id)) base).zip (dumpIds ix 0 writeIds)).map
      dumpEntry).map (·.id) = dumpIds ix 0 writeIds := by
    rw [List.map_map]
    exact List.map_snd_zip size
  rw [parts, List.map_append, List.map_append, dumps, List.map_map]
  rfl

/-- Without ids of its own a packet makes an order that ascends. -/
theorem parts_ascending {start : Nat} {news : List NewIds}
    (plan : Plan dels (writeIds.map (·.id)) base) (starts : writeIdStart base = some start)
    (k : Nat) :
    ((parts (indexesOf false start k writeIds.length) base dels writeIds news).map
      (·.id)).Pairwise (· < ·) := by
  have created : (createdOf (P := P) (indexesOf false start k writeIds.length) news).map (·.id) =
      List.range' (start + writeIds.length) news.length := by
    cases news with
    | nil => rfl
    | cons first news => simp [createdOf, createdIds, indexesOf, Function.comp_def]
  have dumps : dumpIds (indexesOf false start k writeIds.length) 0 writeIds =
      List.range' start writeIds.length := rfl
  rw [parts_ids plan, created, dumps, List.append_assoc, List.range'_append_1]
  refine List.pairwise_append.mpr ⟨?_, List.pairwise_lt_range', ?_⟩
  · exact plan.ascending.sublist (List.filter_sublist.map _)
  · intro id member id' member'
    obtain ⟨pair, kept, rfl⟩ := List.mem_map.mp member
    have less := writeIdStart_above (List.pairwise_map.mp plan.ascending) starts pair
      (List.mem_filter.mp kept).1
    have behind := (List.mem_range'_1.mp member').1
    omega

end

/-- An entry of the list of new blocks, as unpack_new_data and unpack_new_data_id decode it. -/
structure NewEntry where
  typeId : Nat
  typeNum : Nat
  id : Nat

/-- create_new_block takes the numbers of an entry as ints. -/
def NewEntry.newIds (e : NewEntry) : NewIds := ⟨i32 e.typeId, i32 e.typeNum, e.id⟩

/-- Each new block is that of its own entry, and the ids of the version are distinct. -/
structure OwnEntries (hasNewId : Bool) (newIdStart : Nat) (entries : List NewEntry)
    (made : Order P × Nat) : Prop where
  created : ∀ i e, entries[i]? = some e → made.1[made.2 + i]? =
    some ⟨if hasNewId then e.id else newIdStart + i, some (.created e.typeId e.typeNum)⟩
  distinct : (made.1.map (·.id)).Nodup

/-- The entries have the type_id and the type_num of the first one, as ints; a packet that brings
its own ids has at most one of them, and brings no id twice. -/
structure OneKind (hasNewId : Bool) (base : List (AddrPair P)) (dels : List Nat)
    (writeIds : List WriteIds) (entries : List NewEntry) : Prop where
  types : ∀ first ∈ entries.head?, ∀ e ∈ entries,
    i32 first.typeId = e.typeId ∧ i32 first.typeNum = e.typeNum
  ids : hasNewId = true → entries.length ≤ 1 ∧
    ((keptOf dels (writeIds.map (·.id)) base).map (·.id) ++ writeIds.map (·.newId) ++
      entries.map (·.id)).Nodup

section
variable {base : List (AddrPair P)} {dels : List Nat} {writeIds : List WriteIds}
variable {hasNewId : Bool} {start : Nat} {entries : List NewEntry}

variable {made : Order P × Nat} (plan : Plan dels (writeIds.map (·.id)) base)
  (built : made = (parts (indexesOf hasNewId start
      (keptOf dels (writeIds.map (·.id)) base).length writeIds.length) base dels writeIds
        (entries.map NewEntry.newIds),
    (keptOf dels (writeIds.map (·.id)) base).length + writeIds.length))
include plan built

/-- The new blocks stand behind the kept and the written ones, each made of the first entry. -/
theorem created_at {first e : NewEntry} {i : Nat} (head : first ∈ entries.head?)
    (here : entries[i]? = some e) :
    made.1[made.2 + i]? = some ⟨if hasNewId then first.id else start + writeIds.length + i,
      some (.created (i32 first.typeId) (i32 first.typeNum))⟩ := by
  have written := congrArg List.length plan.counts.2
  rw [List.length_map, List.length_map] at written
  obtain ⟨rest, rfl⟩ := List.head?_eq_some_iff.mp head
  have inside : i < rest.length + 1 := (List.getElem?_eq_some_iff.mp here).1
  rw [built, parts, List.getElem?_append_right (by simp [written, dumpIds_length])]
  have place : (keptOf dels (writeIds.map (·.id)) base).length + writeIds.length + i -
      ((keptOf dels (writeIds.map (·.id)) base).map keptEntry ++
        ((writtenOf (writeIds.map (·.id)) base).zip (dumpIds (indexesOf hasNewId start
          (keptOf dels (writeIds.map (·.id)) base).length writeIds.length) 0 writeIds)).map
            dumpEntry).length = i := by
    simp [written, dumpIds_length]
  rw [place]
  cases hasNewId with
  | false => simp [createdOf, createdIds, indexesOf, NewEntry.newIds, inside]
  | true => simp [createdOf, createdIds, indexesOf, NewEntry.newIds, inside]

theorem created_iff :
    (∀ i e, entries[i]? = some e → made.1[made.2 + i]? =
      some ⟨if hasNewId then e.id else start + writeIds.length + i,
        some (.created e.typeId e.typeNum)⟩) ↔
      ∀ first ∈ entries.head?, ∀ e ∈ entries, (i32 first.typeId = e.typeId ∧
        i32 first.typeNum = e.typeNum) ∧ (hasNewId = true → first.id = e.id) := by
  constructor
  · intro own first head e member
    obtain ⟨i, here⟩ := List.mem_iff_getElem?.mp member
    have is := (created_at plan built head here).symm.trans (own i e here)
    cases hasNewId with
    | false => simpa using is
    | true => simpa [and_comm] using is
  · intro same i e here
    cases head : entries.head? with
    | none =>
      rw [List.head?_eq_none_iff.mp head] at here
      cases here
    | some first =>
      obtain ⟨⟨typeId, typeNum⟩, id⟩ := same first head e (List.mem_of_getElem? here)
      rw [created_at plan built head here, typeId, typeNum]
      cases hasNewId with
      | false => rfl
      | true => simp [id rfl]

theorem distinct_iff (starts : writeIdStart base = some start)
    (same : hasNewId = true → ∀ first ∈ entries.head?, ∀ e ∈ entries, first.id = e.id) :
    (made.1.map (·.id)).Nodup ↔ (hasNewId = true → entries.length ≤ 1 ∧
      ((keptOf dels (writeIds.map (·.id)) base).map (·.id) ++ writeIds.map (·.newId) ++
        entries.map (·.id)).Nodup) := by
  cases hasNewId with
  | false =>
    have distinct : (parts (indexesOf false start
        (keptOf dels (writeIds.map (·.id)) base).length writeIds.length) base dels writeIds
          (entries.map NewEntry.newIds)).map (·.id) |>.Nodup :=
      (parts_ascending plan starts _).imp fun less => Nat.ne_of_lt less
    rw [built]
    simpa using distinct
  | true =>
    have created : (createdOf (P := P) (indexesOf true start
        (keptOf dels (writeIds.map (·.id)) base).length writeIds.length)
          (entries.map NewEntry.newIds)).map (·.id) = entries.map (·.id) := by
      cases entries with
      | nil => rfl
      | cons first rest =>
        have all : ∀ e ∈ first :: rest, e.id = first.id := fun e member =>
          (same rfl first rfl e member).symm
        rw [List.map_congr_left all]
        simp [createdOf, createdIds, indexesOf, NewEntry.newIds, List.map_const',
          List.replicate_succ]
    rw [built, parts_ids plan, created]
    have dumps : dumpIds (indexesOf true start (keptOf dels (writeIds.map (·.id)) base).length
        writeIds.length) 0 writeIds = writeIds.map (·.newId) := rfl
    rw [dumps]
    refine ⟨fun distinct _ => ⟨?_, distinct⟩, fun given => (given rfl).2⟩
    cases entries with
    | nil => exact Nat.zero_le 1
    | cons first rest =>
      cases rest with
      | nil => exact Nat.le_refl 1
      | cons second rest =>
        have twice := (List.nodup_append.mp distinct).2.1
        have equal := same rfl first rfl second (by simp)
        simp [equal] at twice

theorem own_entries_iff (starts : writeIdStart base = some start) :
    OwnEntries hasNewId (start + writeIds.length) entries made ↔
      OneKind hasNewId base dels writeIds entries := by
  constructor
  · rintro ⟨created, distinct⟩
    have same := (created_iff plan built).mp created
    refine ⟨fun first head e member => (same first head e member).1, ?_⟩
    exact (distinct_iff plan built starts fun given first head e member =>
      (same first head e member).2 given).mp distinct
  · rintro ⟨types, ids⟩
    have same : hasNewId = true → ∀ first ∈ entries.head?, ∀ e ∈ entries, first.id = e.id := by
      intro given first head e member
      obtain ⟨few, _⟩ := ids given
      obtain ⟨rest, rfl⟩ := List.head?_eq_some_iff.mp head
      have none : rest = [] := List.eq_nil_of_length_eq_zero (by simpa using few)
      rw [none] at member
      rw [List.mem_singleton.mp member]
    refine ⟨(created_iff plan built).mpr fun first head e member =>
      ⟨types first head e member, fun given => same given first head e member⟩, ?_⟩
    exact (distinct_iff plan built starts same).mpr ids

end

/-- The new blocks of a version are those of their entries, under distinct ids, if and only if the
entries are of one kind. -/
theorem new_blocks_iff {all : StructAll} {base : List (AddrPair P)} {hasNewId : Bool}
    {dels : List Nat} {writeIds : List WriteIds} {entries : List NewEntry} {final : Order P}
    (ascending : base.Pairwise (·.id < ·.id))
    (accepted : createNewVersion all base hasNewId dels writeIds (entries.map NewEntry.newIds) =
      .ok final) :
    ∃ start made, writeIdStart base = some start ∧
      createOrder all base hasNewId dels writeIds (entries.map NewEntry.newIds) = .ok made ∧
      final.Perm made.1 ∧
      (OwnEntries hasNewId (start + writeIds.length) entries made ↔
        OneKind hasNewId base dels writeIds entries) := by
  obtain ⟨made, ran, sorts⟩ := createNewVersion_ok.mp accepted
  obtain ⟨plan, start, starts, built⟩ := createOrder_parts ran (List.pairwise_map.mpr ascending)
  refine ⟨start, made, starts, ran, ?_, own_entries_iff plan built starts⟩
  cases hasNewId with
  | false => exact .of_eq sorts.symm
  | true =>
    obtain ⟨sorted, ran, perm, _⟩ := qsort_sorts made.1
    rw [if_pos rfl, ran] at sorts
    cases sorts
    exact perm

/-- Struct types of eight bytes each. -/
def eightBytes : StructAll := ⟨fun _ => 8, fun _ => 0⟩

/-- Two new blocks, of the types 5 and `typeId`. -/
def twoEntries (typeId : Nat) : List NewEntry := [⟨5, 1, 0⟩, ⟨typeId, 1, 0⟩]

theorem twoEntries_newIds {typeId : Nat} (small : typeId < 2 ^ 31) :
    (twoEntries typeId).map NewEntry.newIds = [⟨5, 1, 0⟩, ⟨typeId, 1, 0⟩] := by
  have five : i32 5 = 5 := i32_eq (by decide) (by decide)
  have one : i32 1 = 1 := i32_eq (by decide) (by decide)
  have same : i32 typeId = typeId := i32_eq (by omega) (by omega)
  simp [twoEntries, NewEntry.newIds, five, one, same]

/-- Two new blocks of one type come out as they should. -/
theorem new_blocks_same : ∃ made,
    createOrder eightBytes [⟨1, 0⟩] false [] [⟨1, 0⟩] ((twoEntries 5).map NewEntry.newIds) =
      .ok made ∧ OwnEntries (P := Nat) false 3 (twoEntries 5) made := by
  have accepted : createNewVersion eightBytes [⟨1, (0 : Nat)⟩] false [] [⟨1, 0⟩]
      ((twoEntries 5).map NewEntry.newIds) =
        .ok [⟨2, some (.dump 0)⟩, ⟨3, some (.created 5 1)⟩, ⟨4, some (.created 5 1)⟩] := by
    rw [twoEntries_newIds (by decide)]
    rfl
  obtain ⟨start, made, starts, ran, _, iff⟩ := new_blocks_iff (by simp) accepted
  cases starts
  refine ⟨made, ran, iff.mpr ⟨?_, by simp⟩⟩
  have five : i32 5 = 5 := i32_eq (by decide) (by decide)
  have one : i32 1 = 1 := i32_eq (by decide) (by decide)
  simp [twoEntries, five, one]

/-- Of entries of the types 5 and 7 both blocks are of the type 5. -/
theorem new_blocks_mix : ∃ made,
    createNewVersion eightBytes [⟨1, (0 : Nat)⟩] false [] [⟨1, 0⟩]
        ((twoEntries 7).map NewEntry.newIds) =
      .ok [⟨2, some (.dump 0)⟩, ⟨3, some (.created 5 1)⟩, ⟨4, some (.created 5 1)⟩] ∧
    createOrder eightBytes [⟨1, (0 : Nat)⟩] false [] [⟨1, 0⟩]
        ((twoEntries 7).map NewEntry.newIds) = .ok made ∧
      ¬ OwnEntries false 3 (twoEntries 7) made := by
  rw [twoEntries_newIds (by decide)]
  refine ⟨_, rfl, rfl, ?_⟩
  intro own
  have second := own.created 1 ⟨7, 1, 0⟩ rfl
  exact absurd second (by decide)

end MoonInWater.Sync.Commit
