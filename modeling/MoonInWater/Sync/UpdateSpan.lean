import MoonInWater.Sync.Commit
import MoonInWater.Sync.BlockLookup
import Mathlib.Data.List.Nodup
import Mathlib.Logic.Relation

/-! An update over any number of commits: the lists of changes that get_update_packet makes of two
versions of a history. -/
namespace MoonInWater.Sync.UpdateSpan
open Pairs Commit PointTable Floor

/-- A read or a store outside an array, or the return value -1. -/
inductive Failure where
  | outside
  | refused
deriving DecidableEq

def read {A : Type} : Option A → Except Failure A
  | none => .error .outside
  | some x => .ok x

variable {P : Type}

/-- The lists of get_update_packet with their counts; the first `unfilled` places of the new
blocks have not been stored. -/
structure Update (P : Type) where
  counts : Counts
  dels : List (Pairs.AddrPair P)
  writes : List (Pairs.AddrPair P)
  prevs : List (Pairs.AddrPair P)
  news : List (Pairs.AddrPair P)
  unfilled : Nat

/-- The changes of the older version's blocks. -/
structure BaseChanges (P : Type) where
  dels : List (Pairs.AddrPair P)
  writes : List (Pairs.AddrPair P)
  prevs : List (Pairs.AddrPair P)

section
variable (blocks : P → Commit.MemBlock)

def addrOf (pair : Pairs.AddrPair P) : Nat := (blocks pair.addr).virtualAddr

def byAddr (pair : Pairs.AddrPair P) : Pairs.AddrPair P := ⟨addrOf blocks pair, pair.addr⟩

/-- sort_addr_id -/
def sortAddrId (orderId : List (Pairs.AddrPair P)) : Option (List (Pairs.AddrPair P)) :=
  if orderId.length = 0 then none
  else qsortAddrPair (orderId.length + 1) 0 orderId.length (orderId.map (byAddr blocks))

/-- search_addr_id in order_addr, with the test of virtual_addr that follows it. -/
def blockAt (v : VersionInfo P) (addr : Nat) : Option (Option (Pairs.AddrPair P)) :=
  (searchAddrId (v.orderAddr.length + 1) v.orderAddr addr v.orderAddr.length).map fun found =>
    found.filter fun pair => addrOf blocks pair = addr

def lastId (v : VersionInfo P) : Option Nat := v.orderId.getLast?.map (·.id)

/-- The first loop, from the end of order_id of the newer version on; with what it leaves. -/
def countChanges (all : StructAll) (old : VersionInfo P) (last : Nat) :
    List (Pairs.AddrPair P) → Counts → Except Failure (Counts × Nat)
  | [], counts => .ok (counts, 0)
  | pair :: rest, counts =>
    if last < pair.id then do
      let found ← read (blockAt blocks old (addrOf blocks pair))
      let len := getBlockbufLen all (blocks pair.addr)
      if len ≤ 0 then .error .refused
      else if found.isSome then
        countChanges all old last rest
          { counts with writes := counts.writes + 1, writeBlockSize := counts.writeBlockSize + len }
      else
        countChanges all old last rest
          { counts with news := counts.news + 1, newBlockSize := counts.newBlockSize + len }
    else .ok (counts, rest.length + 1)

/-- A turn of the loop over order_id of the older version. -/
def splitBase (new : VersionInfo P) (delNum : Int) (writeNum : Nat) (s : BaseChanges P)
    (pair : Pairs.AddrPair P) : Except Failure (BaseChanges P) := do
  let found ← read (blockAt blocks new (addrOf blocks pair))
  match found with
  | none =>
    if (s.dels.length : Int) < delNum then .ok { s with dels := s.dels ++ [pair] }
    else .error .outside
  | some now =>
    if (blocks now.addr).id = (blocks pair.addr).id then .ok s
    else if s.writes.length < writeNum then
      .ok { s with writes := s.writes ++ [now], prevs := s.prevs ++ [pair] }
    else .error .outside

/-- The loop over the new blocks, from the end on; `j` places are left. -/
def fillNews (old : VersionInfo P) (last : Nat) :
    List (Pairs.AddrPair P) → Nat → List (Pairs.AddrPair P) →
      Except Failure (Nat × List (Pairs.AddrPair P))
  | pair :: rest, j + 1, news =>
    if last < pair.id then do
      let found ← read (blockAt blocks old (addrOf blocks pair))
      if found.isNone then fillNews old last rest j (pair :: news)
      else fillNews old last rest (j + 1) news
    else .ok (j + 1, news)
  | _, j, news => .ok (j, news)

/-- get_update_packet up to the lists of changes, of versions that are not closed. -/
def getUpdate (all : StructAll) (old new : VersionInfo P) : Except Failure (Update P) :=
  match lastId old with
  | none => .error .refused
  | some last =>
    if new.orderId.length = 0 then .error .refused
    else do
      let counted ← countChanges blocks all old last new.orderId.reverse ⟨0, 0, 0, 0, 0⟩
      let counts := counted.1
      if counts.writes = 0 then .error .refused
      else do
        let delNum : Int := (old.orderId.length : Int) - counted.2 - counts.writes
        let s ← old.orderId.foldlM (splitBase blocks new delNum counts.writes) ⟨[], [], []⟩
        if (s.dels.length : Int) = delNum ∧ s.writes.length = counts.writes then do
          let filled ← fillNews blocks old last new.orderId.reverse counts.news []
          .ok ⟨{ counts with dels := delNum.toNat }, s.dels, s.writes, s.prevs, filled.2, filled.1⟩
        else .error .refused

/-- A version: ids and addresses are unique, and both arrays are in order. -/
structure Sound (v : VersionInfo P) : Prop where
  ascending : v.orderId.Pairwise (·.id < ·.id)
  ids : ∀ pair ∈ v.orderId, (blocks pair.addr).id = pair.id
  distinct : (v.orderId.map (addrOf blocks)).Nodup
  addrs : sortAddrId blocks v.orderId = some v.orderAddr

/-- A commit to a version whose last id is `last`. -/
structure Commits (base next : VersionInfo P) (last : Nat)
    (kept writes news : List (Pairs.AddrPair P)) : Prop where
  starts : lastId base = some last
  order : next.orderId = kept ++ (writes ++ news)
  keeps : kept.Sublist base.orderId
  wrote : writes ≠ []
  ids : (writes ++ news).map (·.id) = List.range' (last + 1) (writes ++ news).length
  blockIds : ∀ pair ∈ writes ++ news, (blocks pair.addr).id = pair.id
  written : ∀ pair ∈ writes, ∃ prev ∈ base.orderId, prev ∉ kept ∧
    addrOf blocks prev = addrOf blocks pair
  fresh : ∀ pair ∈ news, ∀ prev ∈ base.orderId, addrOf blocks prev ≠ addrOf blocks pair
  distinct : ((writes ++ news).map (addrOf blocks)).Nodup
  addrs : sortAddrId blocks next.orderId = some next.orderAddr

def Committed (base next : VersionInfo P) : Prop :=
  ∃ last kept writes news, Commits blocks base next last kept writes news

/-- No block of the version has the address of the pair's. -/
def Gone (v : VersionInfo P) (pair : Pairs.AddrPair P) : Prop :=
  ∀ other ∈ v.orderId, addrOf blocks other ≠ addrOf blocks pair

/-- The block at the address of the pair's has another id in the version. -/
def Rewritten (v : VersionInfo P) (pair : Pairs.AddrPair P) : Prop :=
  ∃ other ∈ v.orderId, addrOf blocks other = addrOf blocks pair ∧ other.id ≠ pair.id

instance (v : VersionInfo P) (pair : Pairs.AddrPair P) : Decidable (Gone blocks v pair) :=
  inferInstanceAs (Decidable (∀ other ∈ v.orderId, addrOf blocks other ≠ addrOf blocks pair))

instance (v : VersionInfo P) (pair : Pairs.AddrPair P) : Decidable (Rewritten blocks v pair) :=
  inferInstanceAs (Decidable (∃ other ∈ v.orderId,
    addrOf blocks other = addrOf blocks pair ∧ other.id ≠ pair.id))

/-- Some block is written, and the other side knows the types of the blocks that are changed. -/
def Sendable (all : StructAll) (old new : VersionInfo P) : Prop :=
  (∃ pair ∈ old.orderId, Rewritten blocks new pair) ∧
    ∀ pair ∈ new.orderId, pair ∉ old.orderId → 0 < getBlockbufLen all (blocks pair.addr)

/-- The changes from one version to another, as they should be. -/
structure Spans (old new : VersionInfo P) (u : Update P) : Prop where
  dels : u.dels = old.orderId.filter fun pair => Gone blocks new pair
  prevs : u.prevs = old.orderId.filter fun pair => Rewritten blocks new pair
  writes : List.Forall₂ (fun now prev => now ∈ new.orderAddr ∧
    addrOf blocks now = addrOf blocks prev ∧ (blocks now.addr).id ≠ prev.id) u.writes u.prevs
  news : u.news = new.orderId.filter fun pair => Gone blocks old pair
  filled : u.unfilled = 0
  delNum : u.counts.dels = u.dels.length
  writeNum : u.counts.writes = u.writes.length
  newNum : u.counts.news = u.news.length
  ascending : u.dels.Pairwise (·.id < ·.id) ∧ u.prevs.Pairwise (·.id < ·.id) ∧
    u.news.Pairwise (·.id < ·.id)

end

section
variable {blocks : P → Commit.MemBlock} {v old new base next : VersionInfo P}
variable {pair other : Pairs.AddrPair P} {last addr : Nat}

theorem Sound.sorted (sound : Sound blocks v) :
    v.orderAddr.Perm (v.orderId.map (byAddr blocks)) ∧ v.orderAddr.Pairwise (·.id < ·.id) := by
  have made := sound.addrs
  unfold sortAddrId at made
  split at made
  · contradiction
  · have enough : (v.orderId.map (byAddr blocks)).length < v.orderId.length + 1 := by simp
    obtain ⟨ys, ran, perm, ascending⟩ := qsortAddrPair_sorts [] [] _ enough
    simp only [List.nil_append, List.append_nil, List.length_nil, List.length_map] at ran
    rw [ran] at made
    cases made
    have unique : (v.orderAddr.map (·.id)).Nodup := by
      apply (perm.map (·.id)).nodup_iff.mpr
      rw [List.map_map]
      exact sound.distinct
    refine ⟨perm, ?_⟩
    apply (ascending.and (List.pairwise_map.mp unique)).imp
    intro x y both
    exact Nat.lt_of_le_of_ne both.1 both.2

theorem Sound.same_block (sound : Sound blocks v) (member : pair ∈ v.orderId)
    (member' : other ∈ v.orderId) (same : addrOf blocks pair = addrOf blocks other) :
    pair = other :=
  List.inj_on_of_nodup_map sound.distinct member member' same

theorem Sound.blockAt_found (sound : Sound blocks v) (member : pair ∈ v.orderId) :
    blockAt blocks v (addrOf blocks pair) = some (some (byAddr blocks pair)) := by
  obtain ⟨perm, ascending⟩ := sound.sorted
  have inside : byAddr blocks pair ∈ v.orderAddr :=
    perm.mem_iff.mpr (List.mem_map_of_mem member)
  have found := searchAddrId_exact ascending inside (Nat.lt_succ_self _)
  have same : addrOf blocks (byAddr blocks pair) = addrOf blocks pair := rfl
  have key : (byAddr blocks pair).id = addrOf blocks pair := rfl
  rw [key] at found
  rw [blockAt, found]
  simp [same]

theorem Sound.blockAt_gone (sound : Sound blocks v) (gone : Gone blocks v pair) :
    blockAt blocks v (addrOf blocks pair) = some none := by
  obtain ⟨perm, ascending⟩ := sound.sorted
  unfold blockAt
  rw [searchAddrId_eq ascending _ (Nat.lt_succ_self _), Option.map_some]
  cases found : floor Pairs.AddrPair.id v.orderAddr (addrOf blocks pair) with
  | none => rfl
  | some x =>
    obtain ⟨member, _⟩ := floor_some found
    obtain ⟨y, inside, rfl⟩ := List.mem_map.mp (perm.mem_iff.mp member)
    have differs : addrOf blocks (byAddr blocks y) ≠ addrOf blocks pair := gone y inside
    simp [differs]

/-- The block at the address of a pair's, if there is one. -/
theorem Sound.blockAt_cases (sound : Sound blocks v) (pair : Pairs.AddrPair P) :
    (Gone blocks v pair ∧ blockAt blocks v (addrOf blocks pair) = some none) ∨
      (¬ Gone blocks v pair ∧ ∃ other ∈ v.orderId, addrOf blocks other = addrOf blocks pair ∧
        blockAt blocks v (addrOf blocks pair) = some (some (byAddr blocks other))) := by
  by_cases gone : Gone blocks v pair
  · exact .inl ⟨gone, sound.blockAt_gone gone⟩
  · have there := gone
    simp only [Gone, not_forall, not_not] at there
    obtain ⟨other, member, same⟩ := there
    refine .inr ⟨gone, other, member, same, ?_⟩
    rw [← same]
    exact sound.blockAt_found member

theorem le_last (ascending : v.orderId.Pairwise (·.id < ·.id)) (starts : lastId v = some last)
    (member : pair ∈ v.orderId) : pair.id ≤ last := by
  obtain ⟨final, found, rfl⟩ := Option.map_eq_some_iff.mp starts
  obtain ⟨before, same⟩ := List.getLast?_eq_some_iff.mp found
  rw [same] at ascending member
  rcases List.mem_append.mp member with early | late
  · have less := (List.pairwise_append.mp ascending).2.2 pair early final (by simp)
    exact Nat.le_of_lt less
  · exact Nat.le_of_eq (congrArg _ (List.mem_singleton.mp late))

/-- What every version after `old` keeps of it. -/
structure Grown (blocks : P → Commit.MemBlock) (old new : VersionInfo P) (last : Nat) : Prop where
  sound : Sound blocks new
  ends : ∃ newLast, lastId new = some newLast ∧ last ≤ newLast
  unchanged : ∀ pair ∈ new.orderId, pair.id ≤ last → pair ∈ old.orderId

variable {kept writes news : List (Pairs.AddrPair P)}

theorem Commits.above (commits : Commits blocks base next last kept writes news)
    (member : pair ∈ writes ++ news) : last < pair.id := by
  have inside := List.mem_map_of_mem (f := (·.id)) member
  rw [commits.ids] at inside
  exact (List.mem_range'_1.mp inside).1

theorem Commits.apart (commits : Commits blocks base next last kept writes news)
    (sound : Sound blocks base) (member : pair ∈ kept) (member' : other ∈ writes ++ news) :
    addrOf blocks pair ≠ addrOf blocks other := by
  have inside := commits.keeps.subset member
  intro same
  rcases List.mem_append.mp member' with written | fresh
  · obtain ⟨prev, there, left, here⟩ := commits.written other written
    have unique := sound.same_block inside there (same.trans here.symm)
    exact left (unique ▸ member)
  · exact commits.fresh other fresh pair inside same

/-- A commit to a version makes a version. -/
theorem Commits.sound (commits : Commits blocks base next last kept writes news)
    (sound : Sound blocks base) : Sound blocks next where
  ascending := by
    rw [commits.order]
    apply List.pairwise_append.mpr
    refine ⟨sound.ascending.sublist commits.keeps, ?_, ?_⟩
    · have ids : ((writes ++ news).map (·.id)).Pairwise (· < ·) := by
        rw [commits.ids]
        exact List.pairwise_lt_range'
      exact List.pairwise_map.mp ids
    · intro x member y member'
      have low := le_last sound.ascending commits.starts (commits.keeps.subset member)
      exact Nat.lt_of_le_of_lt low (commits.above member')
  ids := by
    intro pair member
    rw [commits.order] at member
    rcases List.mem_append.mp member with early | late
    · exact sound.ids pair (commits.keeps.subset early)
    · exact commits.blockIds pair late
  distinct := by
    rw [commits.order, List.map_append]
    apply List.nodup_append.mpr
    refine ⟨sound.distinct.sublist (commits.keeps.map _), commits.distinct, ?_⟩
    intro a member b member'
    obtain ⟨x, inside, rfl⟩ := List.mem_map.mp member
    obtain ⟨y, inside', rfl⟩ := List.mem_map.mp member'
    exact commits.apart sound inside inside'
  addrs := commits.addrs

theorem Commits.grows {first : Nat} (commits : Commits blocks base next last kept writes news)
    (grown : Grown blocks old base first) : Grown blocks old next first where
  sound := commits.sound grown.sound
  ends := by
    obtain ⟨baseLast, starts, low⟩ := grown.ends
    have same : last = baseLast := Option.some.inj (commits.starts.symm.trans starts)
    subst same
    have size : writes ++ news ≠ [] := by simp [commits.wrote]
    have final := List.getLast?_eq_some_getLast size
    refine ⟨((writes ++ news).getLast size).id, ?_, ?_⟩
    · rw [lastId, commits.order, List.getLast?_append, final]
      rfl
    · exact Nat.le_of_lt (Nat.lt_of_le_of_lt low (commits.above (List.getLast_mem size)))
  unchanged := by
    intro pair member small
    obtain ⟨baseLast, starts, low⟩ := grown.ends
    have same : last = baseLast := Option.some.inj (commits.starts.symm.trans starts)
    rw [commits.order] at member
    rcases List.mem_append.mp member with early | late
    · exact grown.unchanged pair (commits.keeps.subset early) small
    · have above := commits.above late
      omega

/-- Through any number of commits, a block whose id is up to the last one of the older version has
not been changed. -/
theorem Grown.of_history (sound : Sound blocks old) (starts : lastId old = some last)
    (history : Relation.ReflTransGen (Committed blocks) old new) : Grown blocks old new last := by
  induction history with
  | refl => exact ⟨sound, ⟨last, starts, Nat.le_refl _⟩, fun _ member _ => member⟩
  | tail _ step ih =>
    obtain ⟨_, _, _, _, commits⟩ := step
    exact commits.grows ih

/-- The first loop counts the blocks of each kind up to the first id that is not above. -/
theorem countChanges_counts {all : StructAll} (sound : Sound blocks old)
    (changed rest : List (Pairs.AddrPair P)) (counts : Counts)
    (above : ∀ pair ∈ changed, last < pair.id) (stop : ∀ pair ∈ rest.head?, pair.id ≤ last)
    (known : ∀ pair ∈ changed, 0 < getBlockbufLen all (blocks pair.addr)) :
    ∃ counts', countChanges blocks all old last (changed ++ rest) counts =
        .ok (counts', rest.length) ∧
      counts'.writes = counts.writes + (changed.filter fun pair => ¬ Gone blocks old pair).length ∧
      counts'.news = counts.news + (changed.filter fun pair => Gone blocks old pair).length := by
  induction changed generalizing counts with
  | nil =>
    refine ⟨counts, ?_, rfl, rfl⟩
    cases rest with
    | nil => rfl
    | cons pair rest =>
      have small := stop pair rfl
      rw [List.nil_append, countChanges, if_neg (Nat.not_lt_of_le small)]
      rfl
  | cons pair changed ih =>
    have len := known pair List.mem_cons_self
    have step := fun counts => ih counts
      (fun p member => above p (List.mem_cons_of_mem _ member))
      (fun p member => known p (List.mem_cons_of_mem _ member))
    rw [List.cons_append, countChanges, if_pos (above pair List.mem_cons_self)]
    rcases sound.blockAt_cases pair with ⟨gone, found⟩ | ⟨there, other, _, _, found⟩
    · simp only [found, read, bind, Except.bind, Option.isSome_none, Bool.false_eq_true, if_false]
      rw [if_neg (Int.not_le.mpr len)]
      obtain ⟨counts', ran, writes, news⟩ := step { counts with
        news := counts.news + 1
        newBlockSize := counts.newBlockSize + getBlockbufLen all (blocks pair.addr) }
      refine ⟨counts', ran, ?_, ?_⟩
      · simpa [gone] using writes
      · rw [List.filter_cons_of_pos (by simpa using gone), List.length_cons]
        dsimp only at news
        omega
    · simp only [found, read, bind, Except.bind, Option.isSome_some, if_true]
      rw [if_neg (Int.not_le.mpr len)]
      obtain ⟨counts', ran, writes, news⟩ := step { counts with
        writes := counts.writes + 1
        writeBlockSize := counts.writeBlockSize + getBlockbufLen all (blocks pair.addr) }
      refine ⟨counts', ran, ?_, ?_⟩
      · rw [List.filter_cons_of_pos (by simpa using there), List.length_cons]
        dsimp only at writes
        omega
      · simpa [there] using news

/-- A changed block whose type the other side does not know ends the first loop. -/
theorem countChanges_unknown {all : StructAll} (sound : Sound blocks old)
    (changed rest : List (Pairs.AddrPair P)) (counts : Counts)
    (above : ∀ pair ∈ changed, last < pair.id)
    (unknown : ∃ pair ∈ changed, getBlockbufLen all (blocks pair.addr) ≤ 0) :
    countChanges blocks all old last (changed ++ rest) counts = .error .refused := by
  induction changed generalizing counts with
  | nil => simp at unknown
  | cons pair changed ih =>
    rw [List.cons_append, countChanges, if_pos (above pair List.mem_cons_self)]
    have step := fun more counts => ih counts
      (fun p member => above p (List.mem_cons_of_mem _ member)) more
    by_cases len : getBlockbufLen all (blocks pair.addr) ≤ 0
    · rcases sound.blockAt_cases pair with ⟨_, found⟩ | ⟨_, other, _, _, found⟩
      all_goals
        simp only [found, read, bind, Except.bind]
        rw [if_pos len]
    · have more : ∃ p ∈ changed, getBlockbufLen all (blocks p.addr) ≤ 0 := by
        obtain ⟨p, member, small⟩ := unknown
        rcases List.mem_cons.mp member with rfl | later
        · exact absurd small len
        · exact ⟨p, later, small⟩
      rcases sound.blockAt_cases pair with ⟨_, found⟩ | ⟨_, other, _, _, found⟩
      · simp only [found, read, bind, Except.bind, Option.isSome_none, Bool.false_eq_true,
          if_false]
        rw [if_neg len]
        exact step more _
      · simp only [found, read, bind, Except.bind, Option.isSome_some, if_true]
        rw [if_neg len]
        exact step more _

/-- The loop over the older version stores each deleted and each written block once. -/
theorem splitBase_all (delNum : Int) (writeNum : Nat) (sound : Sound blocks new)
    (base : List (Pairs.AddrPair P)) (s : BaseChanges P)
    (ids : ∀ pair ∈ base, (blocks pair.addr).id = pair.id)
    (delRoom : (s.dels.length : Int) + (base.filter fun pair => Gone blocks new pair).length ≤
      delNum)
    (writeRoom : s.writes.length + (base.filter fun pair => Rewritten blocks new pair).length ≤
      writeNum) :
    ∃ s', base.foldlM (splitBase blocks new delNum writeNum) s = .ok s' ∧
      s'.dels = s.dels ++ (base.filter fun pair => Gone blocks new pair) ∧
      s'.prevs = s.prevs ++ (base.filter fun pair => Rewritten blocks new pair) ∧
      ∃ more, s'.writes = s.writes ++ more ∧
        List.Forall₂ (fun now prev => now ∈ new.orderAddr ∧
          addrOf blocks now = addrOf blocks prev ∧ (blocks now.addr).id ≠ prev.id) more
            (base.filter fun pair => Rewritten blocks new pair) := by
  induction base generalizing s with
  | nil => exact ⟨s, rfl, by simp, by simp, [], by simp, .nil⟩
  | cons pair base ih =>
    have ids' := fun p member => ids p (List.mem_cons_of_mem _ member)
    have id := ids pair List.mem_cons_self
    rw [List.foldlM_cons]
    rcases sound.blockAt_cases pair with ⟨gone, found⟩ | ⟨there, other, member, same, found⟩
    · have old : ¬ Rewritten blocks new pair := by
        rintro ⟨other, member, same, _⟩
        exact gone other member same
      rw [List.filter_cons_of_pos (by simpa using gone)] at delRoom ⊢
      rw [List.filter_cons_of_neg (by simpa using old)] at writeRoom ⊢
      rw [List.length_cons] at delRoom
      have room : (s.dels.length : Int) < delNum := by omega
      obtain ⟨s', ran, dels, prevs, more, writes, pairs⟩ :=
        ih { s with dels := s.dels ++ [pair] } ids' (by simp; omega) writeRoom
      refine ⟨s', ?_, by simpa using dels, prevs, more, writes, pairs⟩
      simp only [splitBase, found, read, bind, Except.bind, if_pos room]
      exact ran
    · rw [List.filter_cons_of_neg (by simpa using there)] at delRoom ⊢
      have now : (blocks (byAddr blocks other).addr).id = other.id := sound.ids other member
      by_cases unchanged : other.id = pair.id
      · have old : ¬ Rewritten blocks new pair := by
          rintro ⟨other', member', same', differs⟩
          have unique := sound.same_block member member' (same.trans same'.symm)
          exact differs (unique ▸ unchanged)
        rw [List.filter_cons_of_neg (by simpa using old)] at writeRoom ⊢
        obtain ⟨s', ran, rest⟩ := ih s ids' delRoom writeRoom
        refine ⟨s', ?_, rest⟩
        simp only [splitBase, found, read, bind, Except.bind, now, id, if_pos unchanged]
        exact ran
      · have changed : Rewritten blocks new pair := ⟨other, member, same, unchanged⟩
        rw [List.filter_cons_of_pos (by simpa using changed)] at writeRoom ⊢
        rw [List.length_cons] at writeRoom
        have room : s.writes.length < writeNum := by omega
        obtain ⟨s', ran, dels, prevs, more, writes, pairs⟩ :=
          ih { s with
            writes := s.writes ++ [byAddr blocks other]
            prevs := s.prevs ++ [pair] } ids' delRoom (by simp; omega)
        refine ⟨s', ?_, dels, by simpa using prevs, byAddr blocks other :: more,
          by simpa using writes, .cons ⟨?_, same, ?_⟩ pairs⟩
        · simp only [splitBase, found, read, bind, Except.bind, now, id, if_neg unchanged,
            if_pos room]
          exact ran
        · exact sound.sorted.1.mem_iff.mpr (List.mem_map_of_mem member)
        · rw [now]
          exact unchanged

/-- The last loop fills the places of the new blocks from the end on. -/
theorem fillNews_all (sound : Sound blocks old) (changed rest news : List (Pairs.AddrPair P))
    (above : ∀ pair ∈ changed, last < pair.id) {j : Nat}
    (places : j = (changed.filter fun pair => Gone blocks old pair).length) :
    fillNews blocks old last (changed ++ rest) j news =
      .ok (0, (changed.filter fun pair => Gone blocks old pair).reverse ++ news) := by
  induction changed generalizing j news with
  | nil =>
    subst places
    cases rest with
    | nil => rfl
    | cons pair rest => rfl
  | cons pair changed ih =>
    have above' := fun p member => above p (List.mem_cons_of_mem _ member)
    cases j with
    | zero =>
      have none' := List.eq_nil_of_length_eq_zero places.symm
      rw [none', List.cons_append]
      rfl
    | succ j =>
      rw [List.cons_append, fillNews, if_pos (above pair List.mem_cons_self)]
      rcases sound.blockAt_cases pair with ⟨gone, found⟩ | ⟨there, other, _, _, found⟩
      · rw [List.filter_cons_of_pos (by simpa using gone), List.length_cons] at places
        simp only [found, read, bind, Except.bind, Option.isNone_none, if_true]
        rw [ih _ above' (Nat.succ.inj places), List.filter_cons_of_pos (by simpa using gone)]
        simp
      · rw [List.filter_cons_of_neg (by simpa using there)] at places ⊢
        simp only [found, read, bind, Except.bind, Option.isNone_some, Bool.false_eq_true,
          if_false]
        exact ih _ above' places

theorem ascending_split {l : List (Pairs.AddrPair P)} (ascending : l.Pairwise (·.id < ·.id))
    (last : Nat) :
    l = (l.filter fun pair => pair.id ≤ last) ++ l.filter fun pair => last < pair.id := by
  induction l with
  | nil => rfl
  | cons x l ih =>
    by_cases low : x.id ≤ last
    · rw [List.filter_cons_of_pos (by simpa using low),
        List.filter_cons_of_neg (by simpa using low), List.cons_append, ← ih ascending.of_cons]
    · have high : ∀ y ∈ x :: l, last < y.id := by
        intro y member
        rcases List.mem_cons.mp member with rfl | later
        · exact Nat.lt_of_not_le low
        · have less := List.rel_of_pairwise_cons ascending later
          omega
      have noneLow : (x :: l).filter (fun pair => pair.id ≤ last) = [] := by
        apply List.filter_eq_nil_iff.mpr
        intro y member
        simpa using high y member
      have allHigh : (x :: l).filter (fun pair => last < pair.id) = x :: l := by
        apply List.filter_eq_self.mpr
        intro y member
        simpa using high y member
      rw [noneLow, allHigh, List.nil_append]

section
variable (sound : Sound blocks old) (starts : lastId old = some last)
  (grown : Grown blocks old new last)
include sound starts grown

/-- A block of the newer version that has an older one's address is the same block, up to the last
id. -/
theorem same_id (member : pair ∈ old.orderId) (member' : other ∈ new.orderId)
    (same : addrOf blocks other = addrOf blocks pair) : other.id ≤ last ↔ other.id = pair.id := by
  constructor
  · intro low
    have inside := grown.unchanged other member' low
    rw [sound.same_block inside member same]
  · intro unchanged
    rw [unchanged]
    exact le_last sound.ascending starts member

/-- As many blocks have an id above the last one at an old address as old blocks are written. -/
theorem written_count :
    ((new.orderId.filter fun pair => last < pair.id).filter fun pair =>
      ¬ Gone blocks old pair).length =
        (old.orderId.filter fun pair => Rewritten blocks new pair).length := by
  have perm : (((new.orderId.filter fun pair => last < pair.id).filter fun pair =>
      ¬ Gone blocks old pair).map (addrOf blocks)).Perm
        ((old.orderId.filter fun pair => Rewritten blocks new pair).map (addrOf blocks)) := by
    apply (List.perm_ext_iff_of_nodup ?_ ?_).mpr
    · intro addr
      simp only [List.mem_map, List.mem_filter, decide_eq_true_eq]
      constructor
      · rintro ⟨now, ⟨⟨member, high⟩, there⟩, rfl⟩
        simp only [Gone, not_forall, not_not] at there
        obtain ⟨prev, member', same⟩ := there
        have differs := same_id sound starts grown member' member same.symm
        exact ⟨prev, ⟨member', now, member, same.symm, by omega⟩, same⟩
      · rintro ⟨prev, ⟨member', now, member, same, differs⟩, rfl⟩
        have high := same_id sound starts grown member' member same
        refine ⟨now, ⟨⟨member, by omega⟩, ?_⟩, same⟩
        intro gone
        exact gone prev member' same.symm
    · exact grown.sound.distinct.sublist
        ((List.filter_sublist.trans List.filter_sublist).map _)
    · exact sound.distinct.sublist (List.filter_sublist.map _)
  simpa only [List.length_map] using perm.length_eq

/-- The blocks up to the last id are those that are neither deleted nor written. -/
theorem kept_count :
    (new.orderId.filter fun pair => pair.id ≤ last).length +
      (old.orderId.filter fun pair => Gone blocks new pair).length +
        (old.orderId.filter fun pair => Rewritten blocks new pair).length =
          old.orderId.length := by
  have unique (v : VersionInfo P) (sound : Sound blocks v) : v.orderId.Nodup :=
    List.Nodup.of_map _ sound.distinct
  have kept : (new.orderId.filter fun pair => pair.id ≤ last).Perm
      ((old.orderId.filter fun pair => ¬ Gone blocks new pair).filter fun pair =>
        ¬ Rewritten blocks new pair) := by
    apply (List.perm_ext_iff_of_nodup ?_ ?_).mpr
    · intro pair
      simp only [List.mem_filter, decide_eq_true_eq]
      constructor
      · rintro ⟨member, low⟩
        refine ⟨⟨grown.unchanged pair member low, fun gone => gone pair member rfl⟩, ?_⟩
        rintro ⟨other, member', same, differs⟩
        exact differs (congrArg _ (grown.sound.same_block member' member same))
      · rintro ⟨⟨member, there⟩, unwritten⟩
        simp only [Gone, not_forall, not_not] at there
        obtain ⟨other, member', same⟩ := there
        have low : other.id ≤ last := by
          by_contra high
          have differs := same_id sound starts grown member member' same
          exact unwritten ⟨other, member', same, by omega⟩
        have inside := grown.unchanged other member' low
        have here := sound.same_block inside member same
        exact ⟨here ▸ member', here ▸ low⟩
    · exact (unique new grown.sound).filter _
    · exact ((unique old sound).filter _).filter _
  have deleted := List.length_eq_length_filter_add (l := old.orderId)
    fun pair => decide (Gone blocks new pair)
  have written := List.length_eq_length_filter_add
    (l := old.orderId.filter fun pair => ¬ Gone blocks new pair)
    fun pair => decide (Rewritten blocks new pair)
  have there : ((old.orderId.filter fun pair => ¬ Gone blocks new pair).filter fun pair =>
      Rewritten blocks new pair) = old.orderId.filter fun pair => Rewritten blocks new pair := by
    rw [List.filter_filter]
    apply List.filter_congr
    intro pair _
    have known : Rewritten blocks new pair → ¬ Gone blocks new pair := by
      rintro ⟨other, member, same, _⟩ gone
      exact gone other member same
    simpa using known
  rw [there] at written
  have size := kept.length_eq
  simp only [decide_not] at size written
  omega

end

/-- The new blocks of the newer version are all above the last id. -/
theorem news_above (grown : Grown blocks old new last) :
    (new.orderId.filter fun pair => Gone blocks old pair) =
      (new.orderId.filter fun pair => last < pair.id).filter fun pair => Gone blocks old pair := by
  rw [List.filter_filter]
  apply List.filter_congr
  intro pair member
  have high : Gone blocks old pair → last < pair.id := by
    intro gone
    by_contra low
    exact gone pair (grown.unchanged pair member (Nat.le_of_not_lt low)) rfl
  simpa using high

section
variable {all : StructAll} (sound : Sound blocks old) (starts : lastId old = some last)
  (grown : Grown blocks old new last)
include sound starts grown

/-- order_id of the newer version from its end on: first the blocks above the last id. -/
theorem from_end :
    ∃ changed rest, new.orderId.reverse = changed ++ rest ∧
      changed = (new.orderId.filter fun pair => last < pair.id).reverse ∧
      rest = (new.orderId.filter fun pair => pair.id ≤ last).reverse ∧
      (∀ pair, pair ∈ changed ↔ pair ∈ new.orderId ∧ pair ∉ old.orderId) ∧
      (∀ pair ∈ changed, last < pair.id) ∧ ∀ pair ∈ rest.head?, pair.id ≤ last := by
  refine ⟨_, _, ?_, rfl, rfl, ?_, ?_, ?_⟩
  · rw [← List.reverse_append]
    exact congrArg _ (ascending_split grown.sound.ascending last)
  · intro pair
    rw [List.mem_reverse, List.mem_filter, decide_eq_true_eq]
    constructor
    · rintro ⟨member, high⟩
      refine ⟨member, fun here => ?_⟩
      have low := le_last sound.ascending starts here
      omega
    · rintro ⟨member, out⟩
      refine ⟨member, ?_⟩
      by_contra low
      exact out (grown.unchanged pair member (Nat.le_of_not_lt low))
  · intro pair member
    simpa using (List.mem_filter.mp (List.mem_reverse.mp member)).2
  · intro pair first
    simpa using (List.mem_filter.mp (List.mem_reverse.mp (List.mem_of_head? first))).2

theorem first_loop
    (known : ∀ pair ∈ new.orderId, pair ∉ old.orderId → 0 < getBlockbufLen all (blocks pair.addr)) :
    ∃ counts, countChanges blocks all old last new.orderId.reverse ⟨0, 0, 0, 0, 0⟩ =
        .ok (counts, (new.orderId.filter fun pair => pair.id ≤ last).length) ∧
      counts.writes = (old.orderId.filter fun pair => Rewritten blocks new pair).length ∧
      counts.news = (new.orderId.filter fun pair => Gone blocks old pair).length := by
  have written := written_count sound starts grown
  have fresh := news_above grown
  obtain ⟨changed, rest, order, high, low, inside, above, stop⟩ := from_end sound starts grown
  have known' : ∀ pair ∈ changed, 0 < getBlockbufLen all (blocks pair.addr) := by
    intro pair member
    obtain ⟨here, out⟩ := (inside pair).mp member
    exact known pair here out
  obtain ⟨counts, ran, writes, news⟩ :=
    countChanges_counts sound changed rest ⟨0, 0, 0, 0, 0⟩ above stop known'
  rw [high, List.filter_reverse, List.length_reverse, Nat.zero_add] at writes news
  refine ⟨counts, ?_, writes.trans written, news.trans (congrArg _ fresh.symm)⟩
  rw [order, ran, low, List.length_reverse]

theorem first_loop_unknown
    (unknown : ∃ pair ∈ new.orderId, pair ∉ old.orderId ∧
      getBlockbufLen all (blocks pair.addr) ≤ 0) :
    countChanges blocks all old last new.orderId.reverse ⟨0, 0, 0, 0, 0⟩ = .error .refused := by
  obtain ⟨changed, rest, order, _, _, inside, above, _⟩ := from_end sound starts grown
  obtain ⟨pair, member, out, small⟩ := unknown
  rw [order]
  exact countChanges_unknown sound changed rest _ above
    ⟨pair, (inside pair).mpr ⟨member, out⟩, small⟩

theorem last_loop :
    fillNews blocks old last new.orderId.reverse
        (new.orderId.filter fun pair => Gone blocks old pair).length [] =
      .ok (0, new.orderId.filter fun pair => Gone blocks old pair) := by
  have fresh := news_above grown
  obtain ⟨changed, rest, order, high, _, _, above, _⟩ := from_end sound starts grown
  have places : (new.orderId.filter fun pair => Gone blocks old pair).length =
      (changed.filter fun pair => Gone blocks old pair).length := by
    rw [high, List.filter_reverse, List.length_reverse, fresh]
  rw [order, fillNews_all sound changed rest [] above places, high, List.filter_reverse,
    List.reverse_reverse, List.append_nil, fresh]

/-- What get_update_packet makes of the counts of its first loop. -/
theorem getUpdate_counted {counts : Counts}
    (counted : countChanges blocks all old last new.orderId.reverse ⟨0, 0, 0, 0, 0⟩ =
      .ok (counts, (new.orderId.filter fun pair => pair.id ≤ last).length))
    (writes : counts.writes = (old.orderId.filter fun pair => Rewritten blocks new pair).length)
    (news : counts.news = (new.orderId.filter fun pair => Gone blocks old pair).length)
    (wrote : counts.writes ≠ 0) :
    ∃ u, getUpdate blocks all old new = .ok u ∧ Spans blocks old new u := by
  have kept := kept_count sound starts grown
  have filled := last_loop sound starts grown
  have some' : new.orderId.length ≠ 0 := by
    obtain ⟨newLast, ends, _⟩ := grown.ends
    intro empty
    rw [lastId, List.eq_nil_of_length_eq_zero empty] at ends
    contradiction
  have dels : (old.orderId.length : Int) -
      (new.orderId.filter fun pair => pair.id ≤ last).length - counts.writes =
        (old.orderId.filter fun pair => Gone blocks new pair).length := by omega
  obtain ⟨s, ran, delsOf, prevsOf, more, writesOf, pairs⟩ := splitBase_all
    (old.orderId.filter fun pair => Gone blocks new pair).length counts.writes grown.sound
    old.orderId ⟨[], [], []⟩ sound.ids (by simp) (by simp [writes])
  simp only [List.nil_append] at delsOf prevsOf writesOf
  subst writesOf
  have delNum := congrArg List.length delsOf
  have writeNum : s.writes.length = counts.writes := by rw [writes, pairs.length_eq]
  rw [← delsOf] at dels ran
  refine ⟨⟨{ counts with dels := s.dels.length }, s.dels, s.writes, s.prevs,
    new.orderId.filter fun pair => Gone blocks old pair, 0⟩, ?_, ?_⟩
  · unfold getUpdate
    simp only [starts, if_neg some', counted, bind, Except.bind, if_neg wrote, dels, ran,
      writeNum, and_self, if_true, news, filled, Int.toNat_natCast]
  · have ascending := sound.ascending
    refine ⟨delsOf, prevsOf, prevsOf ▸ pairs, rfl, rfl, rfl, writeNum.symm, news, ?_⟩
    rw [delsOf, prevsOf]
    exact ⟨ascending.filter _, ascending.filter _, grown.sound.ascending.filter _⟩

end

/-- get_update_packet lists the changes from one version to any later one, unless it is refused. -/
theorem getUpdate_grown {all : StructAll} (sound : Sound blocks old)
    (starts : lastId old = some last) (grown : Grown blocks old new last) :
    (Sendable blocks all old new →
      ∃ u, getUpdate blocks all old new = .ok u ∧ Spans blocks old new u) ∧
    (¬ Sendable blocks all old new → getUpdate blocks all old new = .error .refused) := by
  by_cases known : ∀ pair ∈ new.orderId, pair ∉ old.orderId →
      0 < getBlockbufLen all (blocks pair.addr)
  · obtain ⟨counts, counted, writes, news⟩ := first_loop sound starts grown known
    by_cases wrote : counts.writes = 0
    · have unwritten : ¬ ∃ pair ∈ old.orderId, Rewritten blocks new pair := by
        rintro ⟨pair, member, rewritten⟩
        rw [wrote] at writes
        have nothing := List.eq_nil_of_length_eq_zero writes.symm
        have there := List.filter_eq_nil_iff.mp nothing pair member
        simp [rewritten] at there
      refine ⟨fun sendable => absurd sendable.1 unwritten, fun _ => ?_⟩
      unfold getUpdate
      simp only [starts, counted, bind, Except.bind, if_pos wrote, ite_self]
    · refine ⟨fun _ => getUpdate_counted sound starts grown counted writes news wrote, ?_⟩
      intro refused
      have written : ∃ pair ∈ old.orderId, Rewritten blocks new pair := by
        rw [writes] at wrote
        obtain ⟨pair, member⟩ := List.exists_mem_of_length_pos (Nat.pos_of_ne_zero wrote)
        obtain ⟨here, rewritten⟩ := List.mem_filter.mp member
        exact ⟨pair, here, of_decide_eq_true rewritten⟩
      exact absurd ⟨written, known⟩ refused
  · refine ⟨fun sendable => absurd sendable.2 known, fun _ => ?_⟩
    have unknown : ∃ pair ∈ new.orderId, pair ∉ old.orderId ∧
        getBlockbufLen all (blocks pair.addr) ≤ 0 := by
      simpa only [not_forall, Int.not_lt, exists_prop] using known
    have counted := first_loop_unknown sound starts grown unknown
    unfold getUpdate
    simp only [starts, counted, bind, Except.bind, ite_self]

/-- An update that is made lists the changes, and the other side knows their types. -/
theorem getUpdate_made {all : StructAll} {u : Update P} (sound : Sound blocks old)
    (starts : lastId old = some last) (grown : Grown blocks old new last)
    (made : getUpdate blocks all old new = .ok u) :
    Sendable blocks all old new ∧ Spans blocks old new u := by
  obtain ⟨sends, refuses⟩ := getUpdate_grown sound starts grown
  by_cases sendable : Sendable blocks all old new
  · obtain ⟨u', same, spans⟩ := sends sendable
    rw [made] at same
    cases same
    exact ⟨sendable, spans⟩
  · rw [refuses sendable] at made
    cases made

theorem Sound.starts (sound : Sound blocks v) : ∃ last, lastId v = some last := by
  have made := sound.addrs
  unfold lastId
  cases found : v.orderId.getLast? with
  | none =>
    rw [List.getLast?_eq_none_iff.mp found] at made
    contradiction
  | some pair => exact ⟨pair.id, rfl⟩

theorem Sound.of_history (sound : Sound blocks old)
    (history : Relation.ReflTransGen (Committed blocks) old new) : Sound blocks new := by
  induction history with
  | refl => exact sound
  | tail _ step ih =>
    obtain ⟨_, _, _, _, commits⟩ := step
    exact commits.sound ih

/-- An update from a version to a later one of its history lists the changes between them. It is
refused when no block is written, or when the other side does not know a type. -/
theorem update_spans {all : StructAll} {origin : VersionInfo P} (first : Sound blocks origin)
    (past : Relation.ReflTransGen (Committed blocks) origin old)
    (later : Relation.TransGen (Committed blocks) old new) :
    (Sendable blocks all old new →
      ∃ u, getUpdate blocks all old new = .ok u ∧ Spans blocks old new u) ∧
    (¬ Sendable blocks all old new → getUpdate blocks all old new = .error .refused) := by
  have sound := first.of_history past
  obtain ⟨last, starts⟩ := sound.starts
  exact getUpdate_grown sound starts (Grown.of_history sound starts later.to_reflTransGen)

end

/-- Blocks at three addresses; the pointers are the ids. -/
def sampleBlocks (p : Nat) : Commit.MemBlock :=
  ⟨p, 0, if p = 1 ∨ p = 3 then 100 else if p = 2 then 200 else 300, false, 0, 1⟩

def sampleTypes : StructAll := ⟨fun _ => 4, fun _ => 0⟩

def sampleFirst : VersionInfo Nat := ⟨[⟨100, 1⟩, ⟨200, 2⟩], [⟨1, 1⟩, ⟨2, 2⟩]⟩

/-- The first block is written, and a block at the third address is new. -/
def sampleSecond : VersionInfo Nat :=
  ⟨[⟨100, 3⟩, ⟨200, 2⟩, ⟨300, 4⟩], [⟨2, 2⟩, ⟨3, 3⟩, ⟨4, 4⟩]⟩

/-- The first block is deleted, and the new one is written. -/
def sampleThird : VersionInfo Nat := ⟨[⟨200, 2⟩, ⟨300, 5⟩], [⟨2, 2⟩, ⟨5, 5⟩]⟩

theorem sampleFirst_sound : Sound sampleBlocks sampleFirst :=
  ⟨by decide, by decide, by decide, by decide⟩

theorem sample_commits : Committed sampleBlocks sampleFirst sampleSecond :=
  ⟨2, [⟨2, 2⟩], [⟨3, 3⟩], [⟨4, 4⟩], by decide, by decide, by decide, by decide, by decide,
    by decide, by decide, by decide, by decide, by decide⟩

theorem sample_commits_again : Committed sampleBlocks sampleSecond sampleThird :=
  ⟨4, [⟨2, 2⟩], [⟨5, 5⟩], [], by decide, by decide, by decide, by decide, by decide,
    by decide, by decide, by decide, by decide, by decide⟩

theorem update_spans_sample :
    ∃ u, getUpdate sampleBlocks sampleTypes sampleFirst sampleSecond = .ok u ∧
      Spans sampleBlocks sampleFirst sampleSecond u :=
  (update_spans sampleFirst_sound .refl (.single sample_commits)).1 ⟨by decide, by decide⟩

/-- After the second commit no block of the first version is written any more, and without the
types on the other side no update is made. -/
theorem sample_refused :
    Sound sampleBlocks sampleFirst ∧
      Relation.TransGen (Committed sampleBlocks) sampleFirst sampleThird ∧
      getUpdate sampleBlocks sampleTypes sampleFirst sampleThird = .error .refused ∧
      getUpdate sampleBlocks ⟨fun _ => 0, fun _ => 0⟩ sampleFirst sampleSecond =
        .error .refused :=
  ⟨sampleFirst_sound, .tail (.single sample_commits) sample_commits_again, by rfl, by rfl⟩

end MoonInWater.Sync.UpdateSpan
