import MoonInWater.Lib.Fuel
import Mathlib.Data.List.Perm.Basic

/-! Arrays of addr_pair_s: qsort_addr_pair, which sorts one in place, and search_addr_id, which
searches one that is sorted. -/
namespace MoonInWater.Sync.Pairs
open Fuel

/-- addr_pair_s; id and virtual_addr are one word of it. -/
structure AddrPair (A : Type) where
  id : Nat
  addr : A
deriving DecidableEq

variable {A : Type}

/-- The loop of qsort_addr_pair over the `left` pairs from `cmpNext` on; none when it reads
outside the array. The place at `saveNext` is free. -/
def partition (out : Nat) (cmp : AddrPair A) :
    Nat → Nat → Nat → List (AddrPair A) → Option (Nat × List (AddrPair A))
  | 0, _, saveNext, a => some (saveNext, a)
  | left + 1, cmpNext, saveNext, a => do
    let x ← a[out + cmpNext]?
    if x.id < cmp.id then
      let a := a.set (out + saveNext) x
      let y ← a[out + (saveNext + 1)]?
      partition out cmp left (cmpNext + 1) (saveNext + 1) (a.set (out + cmpNext) y)
    else partition out cmp left (cmpNext + 1) saveNext a

/-- qsort_addr_pair of the `num` pairs from `out` on. -/
def qsortAddrPair : Nat → Nat → Int → List (AddrPair A) → Option (List (AddrPair A))
  | 0, _, _, _ => none
  | fuel + 1, out, num, a =>
    if num ≤ 1 then some a
    else do
      let half := num.toNat / 2
      let cmp ← a[out + half]?
      let first ← a[out]?
      let (saveNext, a) ← partition out cmp (num.toNat - 1) 1 0 (a.set (out + half) first)
      let a ← qsortAddrPair fuel out saveNext (a.set (out + saveNext) cmp)
      qsortAddrPair fuel (out + saveNext + 1) (num - 1 - saveNext) a

/-- The loop of search_addr_id; `last` is the last pair found below `id`. -/
def searchLoop (a : List (AddrPair A)) (id : Nat) :
    Nat → Nat → Nat → AddrPair A → Option (AddrPair A)
  | 0, _, _, _ => none
  | fuel + 1, left, rightNext, last =>
    if left < rightNext then do
      let mid := left / 2 + rightNext / 2
      let x ← a[mid]?
      if x.id = id then some x
      else if x.id < id then searchLoop a id fuel (mid + 1) rightNext x
      else searchLoop a id fuel left mid last
    else some last

/-- search_addr_id, with NULL or the pair; none when it reads outside the array. -/
def searchAddrId (fuel : Nat) (a : List (AddrPair A)) (id num : Nat) :
    Option (Option (AddrPair A)) :=
  if num = 0 then some none
  else do
    let first ← a[0]?
    if id < first.id then some none
    else if first.id = id then some (some first)
    else (searchLoop a id fuel 1 num first).map some

section
variable {pre less more rest post : List (AddrPair A)} {x y cmp : AddrPair A} {i out num fuel : Nat}

theorem get_at (place : i = pre.length) : (pre ++ x :: post)[i]? = some x := by
  simp [place]

theorem set_at (place : i = pre.length) : (pre ++ x :: post).set i y = pre ++ y :: post := by
  simp [place]

theorem split_at {l : List (AddrPair A)} (inside : i < l.length) :
    ∃ before x behind, l = before ++ x :: behind ∧ before.length = i := by
  refine ⟨l.take i, l[i], l.drop (i + 1), ?_, ?_⟩
  · rw [← List.drop_eq_getElem_cons inside, List.take_append_drop]
  · exact List.length_take_of_le (Nat.le_of_lt inside)

/-- What the loop leaves: smaller pairs, the free place, and the others. -/
structure Parted (cmp : AddrPair A) (pre post xs : List (AddrPair A)) (saveNext : Nat)
    (a : List (AddrPair A)) (less more : List (AddrPair A)) : Prop where
  place : saveNext = less.length
  array : ∃ free, a = pre ++ less ++ free :: more ++ post
  perm : (less ++ more).Perm xs
  below : ∀ x ∈ less, x.id < cmp.id
  above : ∀ x ∈ more, cmp.id ≤ x.id

theorem Parted.permuted {xs xs' : List (AddrPair A)} {a : List (AddrPair A)}
    (parted : Parted cmp pre post xs i a less more) (same : xs.Perm xs') :
    Parted cmp pre post xs' i a less more :=
  { parted with perm := parted.perm.trans same }

variable (pre less more rest post cmp) in
theorem partition_parted (free : AddrPair A) (below : ∀ x ∈ less, x.id < cmp.id)
    (above : ∀ x ∈ more, cmp.id ≤ x.id) :
    ∃ saveNext a less' more', partition pre.length cmp rest.length
      (less.length + 1 + more.length) less.length (pre ++ less ++ free :: more ++ rest ++ post) =
        some (saveNext, a) ∧
      Parted cmp pre post (less ++ more ++ rest) saveNext a less' more' := by
  induction rest generalizing less more free with
  | nil =>
    refine ⟨_, _, less, more, rfl, rfl, ⟨free, by simp⟩, ?_, below, above⟩
    simp
  | cons x rest ih =>
    have read : (pre ++ less ++ free :: more ++ x :: rest ++ post)[pre.length +
        (less.length + 1 + more.length)]? = some x := by
      have shape : pre ++ less ++ free :: more ++ x :: rest ++ post =
          (pre ++ less ++ free :: more) ++ x :: (rest ++ post) := by simp
      rw [shape]
      exact get_at (by simp; omega)
    simp only [List.length_cons, partition, read, Option.bind_eq_bind, Option.bind_some]
    by_cases small : x.id < cmp.id
    · rw [if_pos small]
      have below' : ∀ y ∈ less ++ [x], y.id < cmp.id := by
        intro y member
        rcases List.mem_append.mp member with old | new
        · exact below y old
        · exact List.mem_singleton.mp new ▸ small
      have saved : (pre ++ less ++ free :: more ++ x :: rest ++ post).set
          (pre.length + less.length) x = pre ++ (less ++ [x]) ++ more ++ x :: rest ++ post := by
        have shape : pre ++ less ++ free :: more ++ x :: rest ++ post =
            (pre ++ less) ++ free :: (more ++ x :: rest ++ post) := by simp
        rw [shape, set_at (by simp)]
        simp
      rw [saved]
      cases more with
      | nil =>
        have read : (pre ++ (less ++ [x]) ++ [] ++ x :: rest ++ post)[pre.length +
            (less.length + 1)]? = some x := by
          have shape : pre ++ (less ++ [x]) ++ [] ++ x :: rest ++ post =
              (pre ++ (less ++ [x])) ++ x :: (rest ++ post) := by simp
          rw [shape]
          exact get_at (by simp)
        rw [read]
        have wrote : (pre ++ (less ++ [x]) ++ [] ++ x :: rest ++ post).set
            (pre.length + (less.length + 1 + ([] : List (AddrPair A)).length)) x =
              pre ++ (less ++ [x]) ++ x :: [] ++ rest ++ post := by
          have shape : pre ++ (less ++ [x]) ++ [] ++ x :: rest ++ post =
              (pre ++ (less ++ [x])) ++ x :: (rest ++ post) := by simp
          rw [shape, set_at (by simp)]
          simp
        rw [Option.bind_some, wrote]
        obtain ⟨saveNext, a, less', more', ran, parted⟩ := ih (less ++ [x]) [] x below' above
        simp only [List.length_append, List.length_singleton, List.length_nil] at ran ⊢
        exact ⟨saveNext, a, less', more', ran, parted.permuted (by simp)⟩
      | cons y more =>
        have read : (pre ++ (less ++ [x]) ++ y :: more ++ x :: rest ++ post)[pre.length +
            (less.length + 1)]? = some y := by
          have shape : pre ++ (less ++ [x]) ++ y :: more ++ x :: rest ++ post =
              (pre ++ (less ++ [x])) ++ y :: (more ++ x :: rest ++ post) := by simp
          rw [shape]
          exact get_at (by simp)
        rw [read]
        have wrote : (pre ++ (less ++ [x]) ++ y :: more ++ x :: rest ++ post).set
            (pre.length + (less.length + 1 + (y :: more).length)) y =
              pre ++ (less ++ [x]) ++ y :: (more ++ [y]) ++ rest ++ post := by
          have shape : pre ++ (less ++ [x]) ++ y :: more ++ x :: rest ++ post =
              (pre ++ (less ++ [x]) ++ y :: more) ++ x :: (rest ++ post) := by simp
          rw [shape, set_at (by simp; omega)]
          simp
        rw [Option.bind_some, wrote]
        have above' : ∀ z ∈ more ++ [y], cmp.id ≤ z.id := by
          intro z member
          exact above z (by simpa [or_comm] using member)
        obtain ⟨saveNext, a, less', more', ran, parted⟩ :=
          ih (less ++ [x]) (more ++ [y]) y below' above'
        refine ⟨saveNext, a, less', more', ?_, parted.permuted ?_⟩
        · simp only [List.length_append, List.length_cons, List.length_nil] at ran ⊢
          rw [show less.length + 1 + (more.length + 1) + 1 =
            less.length + (0 + 1) + 1 + (more.length + (0 + 1)) by omega]
          exact ran
        · have swapped : (x :: (more ++ y :: rest)).Perm (y :: (more ++ x :: rest)) :=
            (List.perm_middle.cons x).trans
              ((List.Perm.swap y x _).trans (List.perm_middle.symm.cons y))
          simpa using swapped.append_left less
    · rw [if_neg small]
      have above' : ∀ y ∈ more ++ [x], cmp.id ≤ y.id := by
        intro y member
        rcases List.mem_append.mp member with old | new
        · exact above y old
        · exact List.mem_singleton.mp new ▸ Nat.le_of_not_lt small
      obtain ⟨saveNext, a, less', more', ran, parted⟩ := ih less (more ++ [x]) free below above'
      refine ⟨saveNext, a, less', more', ?_, parted.permuted (by simp)⟩
      simpa [Nat.add_assoc] using ran


/-- The halves of a parted array, once they are in order. -/
theorem Parted.sorted {xs less' more' : List (AddrPair A)} {a : List (AddrPair A)}
    (parted : Parted cmp pre post xs i a less more) (perm : less'.Perm less)
    (perm' : more'.Perm more) (sorted : less'.Pairwise (·.id ≤ ·.id))
    (sorted' : more'.Pairwise (·.id ≤ ·.id)) :
    (less' ++ cmp :: more').Perm (cmp :: xs) ∧
      (less' ++ cmp :: more').Pairwise (·.id ≤ ·.id) := by
  obtain ⟨_, _, parts, below, above⟩ := parted
  constructor
  · exact List.perm_middle.trans (((perm.append perm').trans parts).cons cmp)
  · apply List.pairwise_append.mpr ⟨sorted, List.pairwise_cons.mpr ⟨?_, sorted'⟩, ?_⟩
    · intro y member
      exact above y (perm'.mem_iff.mp member)
    · intro x member y member'
      have small := below x (perm.mem_iff.mp member)
      rcases List.mem_cons.mp member' with rfl | later
      · exact Nat.le_of_lt small
      · exact Nat.le_trans (Nat.le_of_lt small) (above y (perm'.mem_iff.mp later))

variable (pre post) in
theorem qsort_turn {xs : List (AddrPair A)} (long : 1 < xs.length) (fuel : Nat) :
    ∃ cmp rest saveNext a less more, xs.Perm (cmp :: rest) ∧
      Parted cmp pre post rest saveNext a less more ∧
      qsortAddrPair (fuel + 1) pre.length xs.length (pre ++ xs ++ post) =
        (qsortAddrPair fuel pre.length saveNext (a.set (pre.length + saveNext) cmp)).bind
          (qsortAddrPair fuel (pre.length + saveNext + 1) (xs.length - 1 - saveNext)) := by
  cases xs with
  | nil => contradiction
  | cons first tail =>
    -- the pair in the middle, and those on both sides of it
    have place : (tail.length + 1) / 2 - 1 < tail.length := by
      simp only [List.length_cons] at long
      omega
    obtain ⟨before, cmp, behind, rfl, size⟩ := split_at place
    have half : (first :: (before ++ cmp :: behind)).length / 2 = before.length + 1 := by
      simp only [List.length_cons, List.length_append] at long size ⊢
      omega
    have middle : (pre ++ first :: (before ++ cmp :: behind) ++ post)[pre.length +
        (before.length + 1)]? = some cmp := by
      have shape : pre ++ first :: (before ++ cmp :: behind) ++ post =
          (pre ++ first :: before) ++ cmp :: (behind ++ post) := by simp
      rw [shape]
      exact get_at (by simp)
    have start : (pre ++ first :: (before ++ cmp :: behind) ++ post)[pre.length]? =
        some first := by
      rw [List.append_assoc]
      exact get_at rfl
    have moved : (pre ++ first :: (before ++ cmp :: behind) ++ post).set
        (pre.length + (before.length + 1)) first =
          pre ++ [] ++ first :: [] ++ (before ++ first :: behind) ++ post := by
      have shape : pre ++ first :: (before ++ cmp :: behind) ++ post =
          (pre ++ first :: before) ++ cmp :: (behind ++ post) := by simp
      rw [shape, set_at (by simp)]
      simp
    obtain ⟨saveNext, a, less, more, ran, parted⟩ :=
      partition_parted pre [] [] (before ++ first :: behind) post cmp first (by simp) (by simp)
    refine ⟨cmp, before ++ first :: behind, saveNext, a, less, more, ?_, parted, ?_⟩
    · exact (List.perm_middle.cons first).trans
        ((List.Perm.swap cmp first _).trans (List.perm_middle.symm.cons cmp))
    · have count : (first :: (before ++ cmp :: behind)).length - 1 =
          (before ++ first :: behind).length := by simp
      rw [qsortAddrPair, if_neg (by omega)]
      simp only [Int.toNat_natCast, half, middle, start, moved, count, Option.bind_eq_bind,
        Option.bind_some]
      simp only [List.length_nil, Nat.zero_add, Nat.add_zero] at ran
      rw [ran]
      rfl

variable (pre post) in
/-- qsort_addr_pair sorts its part of an array, and leaves the rest of it alone. -/
theorem qsortAddrPair_sorts (xs : List (AddrPair A)) (enough : xs.length < fuel) :
    ∃ ys, qsortAddrPair fuel pre.length xs.length (pre ++ xs ++ post) = some (pre ++ ys ++ post) ∧
      ys.Perm xs ∧ ys.Pairwise (·.id ≤ ·.id) := by
  induction fuel generalizing pre post xs with
  | zero => omega
  | succ fuel ih =>
    by_cases long : 1 < xs.length
    · obtain ⟨cmp, rest, saveNext, a, less, more, perm, parted, turn⟩ :=
        qsort_turn pre post long fuel
      obtain ⟨free, array⟩ := parted.array
      have place := parted.place
      have parts := parted.perm
      have total : less.length + more.length + 1 = xs.length := by
        rw [perm.length_eq, List.length_cons, ← parts.length_eq, List.length_append]
      have freed : a.set (pre.length + saveNext) cmp = pre ++ less ++ (cmp :: more ++ post) := by
        have shape : pre ++ less ++ free :: more ++ post =
            (pre ++ less) ++ free :: (more ++ post) := by simp
        rw [array, place, shape, set_at (by simp)]
        simp
      obtain ⟨less', ran, permLess, sortedLess⟩ :=
        ih pre (cmp :: more ++ post) less (by omega)
      obtain ⟨more', ran', permMore, sortedMore⟩ :=
        ih (pre ++ less' ++ [cmp]) post more (by omega)
      obtain ⟨permAll, sorted⟩ := Parted.sorted parted permLess permMore sortedLess sortedMore
      refine ⟨less' ++ cmp :: more', ?_, permAll.trans perm.symm, sorted⟩
      rw [turn, freed, place, ran, Option.bind_some]
      have left : pre.length + less.length + 1 = (pre ++ less' ++ [cmp]).length := by
        simp [permLess.length_eq, Nat.add_assoc]
      have right : ((xs.length : Int) - 1 - less.length) = (more.length : Int) := by omega
      have shape : pre ++ less' ++ (cmp :: more ++ post) =
          pre ++ less' ++ [cmp] ++ more ++ post := by simp
      rw [left, right, shape, ran']
      simp
    · refine ⟨xs, ?_, List.Perm.refl xs, ?_⟩
      · rw [qsortAddrPair, if_pos (by omega)]
      · cases xs with
        | nil => exact .nil
        | cons x tail =>
          cases tail with
          | nil => exact List.pairwise_singleton _ x
          | cons y tail => simp at long

end

/-- The pair of the greatest id up to `id`. -/
structure Floor (a : List (AddrPair A)) (id : Nat) (x : AddrPair A) : Prop where
  member : x ∈ a
  below : x.id ≤ id
  greatest : ∀ y ∈ a, y.id ≤ id → y.id ≤ x.id

section
variable {a : List (AddrPair A)} {x y last : AddrPair A} {id i j left rightNext fuel : Nat}

theorem ascending_lt (ascending : a.Pairwise (·.id < ·.id)) (first : a[i]? = some x)
    (second : a[j]? = some y) (less : i < j) : x.id < y.id := by
  obtain ⟨inside, rfl⟩ := List.getElem?_eq_some_iff.mp first
  obtain ⟨inside', rfl⟩ := List.getElem?_eq_some_iff.mp second
  exact List.pairwise_iff_getElem.mp ascending i j inside inside' less

theorem ascending_unique (ascending : a.Pairwise (·.id < ·.id)) (member : x ∈ a) (member' : y ∈ a)
    (same : x.id = y.id) : x = y := by
  obtain ⟨i, found⟩ := List.mem_iff_getElem?.mp member
  obtain ⟨j, found'⟩ := List.mem_iff_getElem?.mp member'
  rcases Nat.lt_trichotomy i j with before | rfl | behind
  · exact absurd same (Nat.ne_of_lt (ascending_lt ascending found found' before))
  · rw [found] at found'
    exact Option.some.inj found'
  · exact absurd same (Nat.ne_of_gt (ascending_lt ascending found' found behind))

theorem searchLoop_floor (ascending : a.Pairwise (·.id < ·.id)) (range : left ≤ rightNext)
    (size : rightNext ≤ a.length) (start : a[left - 1]? = some last) (small : last.id < id)
    (above : ∀ j y, rightNext ≤ j → a[j]? = some y → id < y.id) (positive : 0 < left)
    (enough : rightNext - left < fuel) :
    ∃ x, searchLoop a id fuel left rightNext last = some x ∧ Floor a id x := by
  induction fuel generalizing left rightNext last with
  | zero => omega
  | succ fuel ih =>
    by_cases more : left < rightNext
    · have inside : left / 2 + rightNext / 2 < a.length := by omega
      have read := List.getElem?_eq_getElem inside
      generalize a[left / 2 + rightNext / 2] = x at read
      simp only [searchLoop, if_pos more, read, Option.bind_eq_bind, Option.bind_some]
      rcases Nat.lt_trichotomy x.id id with less | same | greater
      · rw [if_neg (Nat.ne_of_lt less), if_pos less]
        exact ih (by omega) size read less above (by omega) (by omega)
      · rw [if_pos same]
        exact ⟨x, rfl, List.mem_of_getElem? read, Nat.le_of_eq same, fun y _ le => same ▸ le⟩
      · rw [if_neg (Nat.ne_of_gt greater), if_neg (Nat.lt_asymm greater)]
        refine ih (by omega) (by omega) start small ?_ positive (by omega)
        intro j y behind found
        rcases Nat.lt_or_eq_of_le behind with later | rfl
        · exact Nat.lt_trans greater (ascending_lt ascending read found later)
        · rw [read] at found
          cases found
          exact greater
    · refine ⟨last, if_neg more, List.mem_of_getElem? start, Nat.le_of_lt small, ?_⟩
      intro y member le
      obtain ⟨j, found⟩ := List.mem_iff_getElem?.mp member
      rcases Nat.lt_or_ge j rightNext with before | behind
      · rcases Nat.lt_or_ge j (left - 1) with less | next
        · exact Nat.le_of_lt (ascending_lt ascending found start less)
        · have here : j = left - 1 := by omega
          rw [here, start] at found
          cases found
          exact Nat.le_refl _
      · exact absurd (above j y behind found) (Nat.not_lt_of_le le)

/-- search_addr_id in an array that is strictly ascending returns the greatest id up to `id`, or
NULL when there is none. -/
theorem searchAddrId_floor (ascending : a.Pairwise (·.id < ·.id)) (id : Nat)
    (enough : a.length < fuel) :
    (∃ x, searchAddrId fuel a id a.length = some (some x) ∧ Floor a id x) ∨
      (searchAddrId fuel a id a.length = some none ∧ ∀ y ∈ a, id < y.id) := by
  cases a with
  | nil => exact .inr ⟨rfl, by simp⟩
  | cons first rest =>
    have start : (first :: rest)[0]? = some first := rfl
    simp only [searchAddrId, List.length_cons, if_neg (Nat.succ_ne_zero _), start,
      Option.bind_eq_bind, Option.bind_some]
    have least : ∀ y ∈ first :: rest, first.id ≤ y.id := by
      intro y member
      rcases List.mem_cons.mp member with rfl | later
      · exact Nat.le_refl _
      · exact Nat.le_of_lt (List.rel_of_pairwise_cons ascending later)
    rcases Nat.lt_trichotomy first.id id with less | same | greater
    · rw [if_neg (Nat.lt_asymm less), if_neg (Nat.ne_of_lt less)]
      have ends : ∀ j y, (first :: rest).length ≤ j → (first :: rest)[j]? = some y → id < y.id := by
        intro j y outside found
        rw [List.getElem?_eq_none outside] at found
        contradiction
      obtain ⟨x, found, floor⟩ := searchLoop_floor ascending (by simp) (Nat.le_refl _) start less
        ends Nat.one_pos (Nat.lt_of_le_of_lt (Nat.sub_le _ _) enough)
      simp only [List.length_cons] at found
      exact .inl ⟨x, by rw [found, Option.map_some], floor⟩
    · rw [if_neg (by omega), if_pos same]
      refine .inl ⟨first, rfl, List.mem_cons_self, Nat.le_of_eq same, ?_⟩
      intro y _ le
      exact same ▸ le
    · rw [if_pos greater]
      exact .inr ⟨rfl, fun y member => Nat.lt_of_lt_of_le greater (least y member)⟩

/-- The test that follows each search: the pair found is that of the id itself. -/
theorem searchAddrId_exact (ascending : a.Pairwise (·.id < ·.id)) (member : x ∈ a)
    (enough : a.length < fuel) : searchAddrId fuel a x.id a.length = some (some x) := by
  rcases searchAddrId_floor ascending x.id enough with ⟨y, found, inside, below, greatest⟩ | none
  · have same : y.id = x.id := Nat.le_antisymm below (greatest x member (Nat.le_refl _))
    have unique := ascending_unique ascending inside member same
    exact unique ▸ found
  · exact absurd (none.2 x member) (Nat.lt_irrefl _)

end
end MoonInWater.Sync.Pairs
