import MoonInWater.Sync.Pairs

/-! Pairs in a larger array: qsort_addr_pair and search_addr_id neither read nor write outside the
pairs that they are given. -/
namespace MoonInWater.Sync.Pairs
variable {A : Type}

section
variable (pre post : List (AddrPair A)) {a : List (AddrPair A)} {i : Nat}

theorem framed_get (inside : i < a.length) : (pre ++ a ++ post)[pre.length + i]? = a[i]? := by
  rw [List.append_assoc, List.getElem?_append_right (Nat.le_add_right _ _), Nat.add_sub_cancel_left,
    List.getElem?_append_left inside]

theorem framed_set (inside : i < a.length) (x : AddrPair A) :
    (pre ++ a ++ post).set (pre.length + i) x = pre ++ a.set i x ++ post := by
  rw [List.append_assoc, List.set_append_right _ _ (Nat.le_add_right _ _), Nat.add_sub_cancel_left,
    List.set_append_left _ _ inside, List.append_assoc]

/-- What a run of the loop makes of an array: the free place stays behind the pairs read. -/
theorem partition_size {cmp : AddrPair A} {out left cmpNext saveNext saveNext' : Nat}
    {a' : List (AddrPair A)}
    (ran : partition out cmp left cmpNext saveNext a = some (saveNext', a')) :
    a'.length = a.length ∧ saveNext' ≤ saveNext + left := by
  induction left generalizing cmpNext saveNext a with
  | zero =>
    cases ran
    exact ⟨rfl, Nat.le_refl _⟩
  | succ left ih =>
    obtain ⟨x, _, ran⟩ := Option.bind_eq_some_iff.mp ran
    by_cases small : x.id < cmp.id
    · rw [if_pos small] at ran
      obtain ⟨y, _, ran⟩ := Option.bind_eq_some_iff.mp ran
      obtain ⟨length, bound⟩ := ih ran
      rw [List.length_set, List.length_set] at length
      exact ⟨length, by omega⟩
    · rw [if_neg small] at ran
      obtain ⟨length, bound⟩ := ih ran
      exact ⟨length, by omega⟩

theorem partition_framed {cmp : AddrPair A} {out left cmpNext saveNext : Nat}
    (behind : saveNext < cmpNext) (inside : out + cmpNext + left ≤ a.length) :
    partition (pre.length + out) cmp left cmpNext saveNext (pre ++ a ++ post) =
      (partition out cmp left cmpNext saveNext a).map fun r => (r.1, pre ++ r.2 ++ post) := by
  induction left generalizing cmpNext saveNext a with
  | zero => rfl
  | succ left ih =>
    simp only [partition, Nat.add_assoc pre.length]
    rw [framed_get pre post (by omega)]
    cases a[out + cmpNext]? with
    | none => rfl
    | some x =>
      simp only [Option.bind_eq_bind, Option.bind_some]
      by_cases small : x.id < cmp.id
      · rw [if_pos small, if_pos small, framed_set pre post (by omega),
          framed_get pre post (by rw [List.length_set]; omega)]
        cases (a.set (out + saveNext) x)[out + (saveNext + 1)]? with
        | none => rfl
        | some y =>
          simp only [Option.bind_some]
          rw [framed_set pre post (by rw [List.length_set]; omega)]
          exact ih (by omega) (by rw [List.length_set, List.length_set]; omega)
      · rw [if_neg small, if_neg small]
        exact ih (by omega) (by omega)

theorem qsortAddrPair_length {fuel out : Nat} {num : Int} {a' : List (AddrPair A)}
    (ran : qsortAddrPair fuel out num a = some a') : a'.length = a.length := by
  induction fuel generalizing out num a a' with
  | zero => contradiction
  | succ fuel ih =>
    unfold qsortAddrPair at ran
    split at ran
    · cases ran
      rfl
    · obtain ⟨cmp, _, ran⟩ := Option.bind_eq_some_iff.mp ran
      obtain ⟨first, _, ran⟩ := Option.bind_eq_some_iff.mp ran
      obtain ⟨⟨saveNext, b⟩, parted, ran⟩ := Option.bind_eq_some_iff.mp ran
      obtain ⟨c, left, right⟩ := Option.bind_eq_some_iff.mp ran
      have size := (partition_size parted).1
      rw [ih right, ih left, List.length_set, size, List.length_set]

/-- qsort_addr_pair does to its pairs in a larger array what it does to them alone. -/
theorem qsortAddrPair_framed {fuel out : Nat} {num : Int} (inside : (out : Int) + num ≤ a.length) :
    qsortAddrPair fuel (pre.length + out) num (pre ++ a ++ post) =
      (qsortAddrPair fuel out num a).map fun b => pre ++ b ++ post := by
  induction fuel generalizing out num a with
  | zero => rfl
  | succ fuel ih =>
    unfold qsortAddrPair
    by_cases few : num ≤ 1
    · rw [if_pos few, if_pos few]
      rfl
    · rw [if_neg few, if_neg few]
      dsimp only
      rw [Nat.add_assoc, framed_get pre post (by omega), framed_get pre post (by omega)]
      cases a[out + num.toNat / 2]? with
      | none => rfl
      | some cmp =>
        cases a[out]? with
        | none => rfl
        | some first =>
          simp only [Option.bind_eq_bind, Option.bind_some]
          rw [framed_set pre post (by omega),
            partition_framed pre post Nat.one_pos (by rw [List.length_set]; omega)]
          cases parted : partition out cmp (num.toNat - 1) 1 0 (a.set (out + num.toNat / 2) first)
            with
          | none => rfl
          | some r =>
            obtain ⟨saveNext, b⟩ := r
            obtain ⟨size, bound⟩ := partition_size parted
            rw [List.length_set] at size
            simp only [Option.map_some, Option.bind_some]
            rw [Nat.add_assoc, framed_set pre post (by omega),
              ih (by rw [List.length_set]; omega)]
            cases left : qsortAddrPair fuel out saveNext (b.set (out + saveNext) cmp) with
            | none => rfl
            | some c =>
              have size' := qsortAddrPair_length left
              rw [List.length_set] at size'
              simp only [Option.map_some, Option.bind_some]
              rw [Nat.add_assoc pre.length]
              exact ih (by omega)

/-- A run that ends does not depend on how much fuel there was for it. -/
theorem qsortAddrPair_fuel {fuel more out : Nat} {num : Int} {a' : List (AddrPair A)}
    (ran : qsortAddrPair fuel out num a = some a') (enough : fuel ≤ more) :
    qsortAddrPair more out num a = some a' := by
  induction fuel generalizing more out num a a' with
  | zero => contradiction
  | succ fuel ih =>
    obtain ⟨more, rfl⟩ : ∃ k, more = k + 1 := ⟨more - 1, by omega⟩
    unfold qsortAddrPair at ran ⊢
    by_cases few : num ≤ 1
    · rw [if_pos few] at ran ⊢
      exact ran
    · rw [if_neg few] at ran ⊢
      obtain ⟨cmp, middle, ran⟩ := Option.bind_eq_some_iff.mp ran
      obtain ⟨first, start, ran⟩ := Option.bind_eq_some_iff.mp ran
      obtain ⟨r, parted, ran⟩ := Option.bind_eq_some_iff.mp ran
      obtain ⟨c, left, right⟩ := Option.bind_eq_some_iff.mp ran
      refine Option.bind_eq_some_iff.mpr ⟨cmp, middle, ?_⟩
      refine Option.bind_eq_some_iff.mpr ⟨first, start, ?_⟩
      refine Option.bind_eq_some_iff.mpr ⟨r, parted, ?_⟩
      exact Option.bind_eq_some_iff.mpr
        ⟨c, ih left (Nat.le_of_succ_le_succ enough), ih right (Nat.le_of_succ_le_succ enough)⟩

theorem searchLoop_framed {id fuel left rightNext : Nat} {last : AddrPair A}
    (inside : rightNext ≤ a.length) :
    searchLoop (a ++ post) id fuel left rightNext last =
      searchLoop a id fuel left rightNext last := by
  induction fuel generalizing left rightNext last with
  | zero => rfl
  | succ fuel ih =>
    unfold searchLoop
    by_cases more : left < rightNext
    · rw [if_pos more, if_pos more]
      dsimp only
      rw [List.getElem?_append_left (by omega)]
      cases a[left / 2 + rightNext / 2]? with
      | none => rfl
      | some x =>
        simp only [Option.bind_eq_bind, Option.bind_some]
        rw [ih inside, ih (by omega)]
    · rw [if_neg more, if_neg more]

theorem searchAddrId_framed (fuel id : Nat) :
    searchAddrId fuel (a ++ post) id a.length = searchAddrId fuel a id a.length := by
  unfold searchAddrId
  by_cases empty : a.length = 0
  · rw [if_pos empty, if_pos empty]
  · rw [if_neg empty, if_neg empty, List.getElem?_append_left (Nat.pos_of_ne_zero empty)]
    simp only [searchLoop_framed post (Nat.le_refl a.length)]

end

/-- qsort_addr_pair leaves its pairs in the order of their addresses, wherever they stand, and does
not depend on what stands around them. -/
theorem qsortAddrPair_in_place (xs : List (AddrPair A)) (num : Int) (size : xs.length = num.toNat) :
    ∃ ys, ys.Perm xs ∧ ys.Pairwise (·.id ≤ ·.id) ∧
      ∀ pre post fuel, xs.length < fuel →
        qsortAddrPair fuel pre.length num (pre ++ xs ++ post) = some (pre ++ ys ++ post) := by
  by_cases empty : num ≤ 0
  · obtain rfl := List.eq_nil_of_length_eq_zero (size.trans (Int.toNat_of_nonpos empty))
    refine ⟨[], .nil, .nil, fun pre post fuel enough => ?_⟩
    cases fuel with
    | zero => contradiction
    | succ fuel => exact if_pos (by omega)
  · have same : num = xs.length := by omega
    subst same
    obtain ⟨ys, ran, perm, sorted⟩ := qsortAddrPair_sorts [] [] xs (Nat.lt_succ_self _)
    simp only [List.nil_append, List.append_nil, List.length_nil] at ran
    refine ⟨ys, perm, sorted, fun pre post fuel enough => ?_⟩
    have framed : qsortAddrPair fuel (pre.length + 0) xs.length (pre ++ xs ++ post) =
        (qsortAddrPair fuel 0 xs.length xs).map fun b => pre ++ b ++ post :=
      qsortAddrPair_framed pre post (by omega)
    rw [Nat.add_zero] at framed
    rw [framed, qsortAddrPair_fuel ran enough, Option.map_some]

theorem qsortAddrPair_in_place_three :
    ∃ ys : List (AddrPair Nat), ys.Perm [⟨5, 0⟩, ⟨3, 1⟩, ⟨5, 2⟩] ∧ ys.Pairwise (·.id ≤ ·.id) ∧
      qsortAddrPair 4 1 3 [⟨9, 3⟩, ⟨5, 0⟩, ⟨3, 1⟩, ⟨5, 2⟩, ⟨0, 4⟩] =
        some ([⟨9, 3⟩] ++ ys ++ [⟨0, 4⟩]) := by
  obtain ⟨ys, perm, sorted, runs⟩ :=
    qsortAddrPair_in_place [⟨5, 0⟩, ⟨3, 1⟩, (⟨5, 2⟩ : AddrPair Nat)] 3 (by decide)
  exact ⟨ys, perm, sorted, runs [⟨9, 3⟩] [⟨0, 4⟩] 4 (by decide)⟩

theorem Floor.unique {a : List (AddrPair A)} {id : Nat} {x y : AddrPair A}
    (ascending : a.Pairwise (·.id < ·.id)) (first : Floor a id x) (second : Floor a id y) :
    x = y := by
  have below := second.greatest x first.member first.below
  have above := first.greatest y second.member second.below
  exact ascending_unique ascending first.member second.member (Nat.le_antisymm below above)

/-- search_addr_id in an array that is strictly ascending returns the pair of the greatest id up to
`id`, or NULL when there is none, and reads nothing behind the pairs of the array. -/
theorem searchAddrId_greatest {a : List (AddrPair A)} (ascending : a.Pairwise (·.id < ·.id))
    (id : Nat) :
    ∃ found, (∀ post fuel, a.length < fuel →
        searchAddrId fuel (a ++ post) id a.length = some found) ∧
      (found = none ↔ a = [] ∨ ∀ x ∈ a, id < x.id) ∧
      ∀ x, found = some x → Floor a id x := by
  have framed : ∀ post fuel,
      searchAddrId fuel (a ++ post) id a.length = searchAddrId fuel a id a.length :=
    fun post fuel => searchAddrId_framed post fuel id
  rcases searchAddrId_floor ascending id (Nat.lt_succ_self a.length) with
    ⟨x, _, floor⟩ | ⟨_, above⟩
  · refine ⟨some x, fun post fuel enough => ?_, ?_, ?_⟩
    · rw [framed]
      rcases searchAddrId_floor ascending id enough with ⟨y, found, floor'⟩ | ⟨_, above⟩
      · rw [found, Floor.unique ascending floor' floor]
      · exact absurd floor.below (Nat.not_le_of_gt (above x floor.member))
    · simp only [reduceCtorEq, false_iff, not_or]
      constructor
      · rintro rfl
        exact List.not_mem_nil floor.member
      · intro above
        exact absurd floor.below (Nat.not_le_of_gt (above x floor.member))
    · intro y same
      cases same
      exact floor
  · refine ⟨none, fun post fuel enough => ?_, ?_, fun x same => nomatch same⟩
    · rw [framed]
      rcases searchAddrId_floor ascending id enough with ⟨y, _, floor⟩ | ⟨found, _⟩
      · exact absurd floor.below (Nat.not_le_of_gt (above y floor.member))
      · exact found
    · exact iff_of_true rfl (.inr above)

theorem searchAddrId_greatest_two :
    ∃ found : Option (AddrPair Nat),
      searchAddrId 3 [⟨2, 0⟩, ⟨5, 1⟩, ⟨7, 2⟩] 6 2 = some found ∧
      ∀ x, found = some x → Floor [⟨2, 0⟩, ⟨5, 1⟩] 6 x := by
  obtain ⟨found, runs, _, floor⟩ :=
    searchAddrId_greatest (a := [⟨2, 0⟩, (⟨5, 1⟩ : AddrPair Nat)]) (by decide) 6
  exact ⟨found, runs [⟨7, 2⟩] 3 (by decide), floor⟩

end MoonInWater.Sync.Pairs
