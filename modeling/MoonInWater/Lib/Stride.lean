import MoonInWater.Lib.Bytes

/-! Loops over the records of a table in memory, each of which writes a record of another table.
The two may lie over each other as long as the writer stays behind the reader. -/
namespace MoonInWater.Bytes

/-- The first turns of a loop; a return value below zero ends it. -/
def turns (turn : Nat → Memory → Option (Memory × Int)) : Nat → Memory → Option (Memory × Int)
  | 0, mem => some (mem, 0)
  | j + 1, mem => (turns turn j mem).bind fun s => if s.2 < 0 then some s else turn j s.1

/-- Record `j` of a table of records of `r` bytes. -/
def record (mem : Memory) (table r j : Nat) : List UInt8 := read mem (table + r * j) r

/-- A turn makes the record of `dst` from that of `src`, and writes to both at most. -/
structure Converts (f : List UInt8 → Option (List UInt8 × Int)) (src r dst w : Nat)
    (turn : Nat → Memory → Option (Memory × Int)) : Prop where
  fails : ∀ j mem, f (record mem src r j) = none → turn j mem = none
  gives : ∀ j mem out ret, f (record mem src r j) = some (out, ret) →
    ∃ mem', turn j mem = some (mem', ret) ∧ (0 ≤ ret → record mem' dst w j = out ∧
      ∀ a, (a < src + r * j ∨ src + r * (j + 1) ≤ a) → (a < dst + w * j ∨ dst + w * (j + 1) ≤ a) →
        mem' a = mem a)

/-- What is written by the earlier of two turns is not what the later one reads. -/
def Ahead (src r dst w n : Nat) : Prop :=
  ∀ i j, i < j → j < n → dst + w * (i + 1) ≤ src + r * j ∨ src + r * (j + 1) ≤ dst + w * i

section
variable {f : List UInt8 → Option (List UInt8 × Int)} {src r dst w dst' n j k : Nat}
variable {turn turn' : Nat → Memory → Option (Memory × Int)} {mem mem' mem₁ mem₂ : Memory}
variable {ret : Int}

theorem record_congr {table : Nat}
    (same : ∀ a, table + r * j ≤ a → a < table + r * (j + 1) → mem a = mem' a) :
    record mem table r j = record mem' table r j := by
  apply read_congr
  intro a low high
  exact same a low (by rw [Nat.mul_succ]; omega)

/-- Two tables with the same records are the same. -/
theorem table_eq {table table' : Nat}
    (same : ∀ k < n, record mem table r k = record mem' table' r k) :
    read mem table (r * n) = read mem' table' (r * n) := by
  induction n with
  | zero => rfl
  | succ n ih =>
    have front := ih fun k less => same k (Nat.lt_succ_of_lt less)
    have last := same n (Nat.lt_succ_self n)
    rw [record, record] at last
    rw [Nat.mul_succ, read_append, read_append, front, last]

/-- A turn ends with its own record made, and leaves those made before and those still to be
read. -/
theorem Converts.turn_keeps (converts : Converts f src r dst w turn) (ahead : Ahead src r dst w n)
    (inside : j < n) (ran : turn j mem = some (mem', ret)) (ok : 0 ≤ ret) :
    f (record mem src r j) = some (record mem' dst w j, ret) ∧
      (∀ k, j < k → k < n → record mem' src r k = record mem src r k) ∧
      ∀ k < j, record mem' dst w k = record mem dst w k := by
  cases made : f (record mem src r j) with
  | none =>
    rw [converts.fails j mem made] at ran
    contradiction
  | some result =>
    obtain ⟨mem₁, ran₁, rest⟩ := converts.gives j mem result.1 result.2 made
    cases ran.symm.trans ran₁
    obtain ⟨out, frame⟩ := rest ok
    refine ⟨by rw [out], fun k later more => ?_, fun k earlier => ?_⟩
    · apply record_congr
      intro a low high
      have source : r * (j + 1) ≤ r * k := Nat.mul_le_mul_left r later
      apply frame a
      · exact .inr (by omega)
      · rcases ahead j k later more with behind | before
        · exact .inr (by omega)
        · exact .inl (by omega)
    · apply record_congr
      intro a low high
      have target : w * (k + 1) ≤ w * j := Nat.mul_le_mul_left w earlier
      apply frame a
      · rcases ahead k j earlier inside with behind | before
        · exact .inl (by omega)
        · exact .inr (by omega)
      · exact .inl (by omega)

theorem turns_succ (ran : turns turn (j + 1) mem = some (mem', ret)) (ok : 0 ≤ ret) :
    ∃ mem₁ ret₁, turns turn j mem = some (mem₁, ret₁) ∧ 0 ≤ ret₁ ∧
      turn j mem₁ = some (mem', ret) := by
  obtain ⟨⟨mem₁, ret₁⟩, before, step⟩ := Option.bind_eq_some_iff.mp ran
  dsimp only at step
  by_cases failed : ret₁ < 0
  · rw [if_pos failed] at step
    cases step
    omega
  · rw [if_neg failed] at step
    exact ⟨mem₁, ret₁, before, Int.not_lt.mp failed, step⟩

/-- Each record is read as it was before the loop, and what is made of it stays. -/
theorem Converts.turns_reads (converts : Converts f src r dst w turn) (ahead : Ahead src r dst w n)
    (inside : j ≤ n) (ran : turns turn j mem = some (mem', ret)) (ok : 0 ≤ ret) :
    (∀ k, j ≤ k → k < n → record mem' src r k = record mem src r k) ∧
      ∀ k < j, ∃ ret, f (record mem src r k) = some (record mem' dst w k, ret) := by
  induction j generalizing mem' ret with
  | zero =>
    cases ran
    exact ⟨fun _ _ _ => rfl, fun _ less => absurd less (Nat.not_lt_zero _)⟩
  | succ j ih =>
    obtain ⟨mem₁, ret₁, before, ok₁, step⟩ := turns_succ ran ok
    obtain ⟨reads, made⟩ := ih (Nat.le_of_succ_le inside) before ok₁
    obtain ⟨own, later, earlier⟩ := converts.turn_keeps ahead inside step ok
    constructor
    · intro k behind more
      rw [later k behind more, reads k (Nat.le_of_succ_le behind) more]
    · intro k less
      rcases Nat.lt_or_eq_of_le (Nat.le_of_lt_succ less) with before | rfl
      · rw [earlier k before]
        exact made k before
      · rw [← reads k (Nat.le_refl k) inside]
        exact ⟨ret, own⟩

/-- The return value depends on the records alone. -/
theorem Converts.turns_ret (converts : Converts f src r dst w turn)
    (ahead : Ahead src r dst w n) (inside : j < n) (ran : turns turn j mem = some (mem', ret))
    (ok : 0 ≤ ret) : (turns turn (j + 1) mem).map Prod.snd =
      (f (record mem src r j)).map Prod.snd := by
  obtain ⟨reads, _⟩ := converts.turns_reads ahead (Nat.le_of_lt inside) ran ok
  have same := reads j (Nat.le_refl j) inside
  rw [turns, ran, Option.bind_some, if_neg (Int.not_lt.mpr ok), ← same]
  cases made : f (record mem' src r j) with
  | none => rw [converts.fails j mem' made]; rfl
  | some result =>
    obtain ⟨mem₁, ran₁, _⟩ := converts.gives j mem' result.1 result.2 made
    rw [ran₁]
    rfl

/-- In a loop that does not fail no record is refused. -/
theorem Converts.turns_each (converts : Converts f src r dst w turn)
    (ahead : Ahead src r dst w n) (inside : j ≤ n) (ran : turns turn j mem = some (mem', ret))
    (ok : 0 ≤ ret) : ∀ k < j, ∃ out ret, f (record mem src r k) = some (out, ret) ∧ 0 ≤ ret := by
  induction j generalizing mem' ret with
  | zero => exact fun _ less => absurd less (Nat.not_lt_zero _)
  | succ j ih =>
    obtain ⟨mem₁, ret₁, before, ok₁, step⟩ := turns_succ ran ok
    intro k less
    rcases Nat.lt_or_eq_of_le (Nat.le_of_lt_succ less) with earlier | rfl
    · exact ih (Nat.le_of_succ_le inside) before ok₁ k earlier
    · have last := converts.turns_ret ahead inside before ok₁
      rw [ran] at last
      obtain ⟨⟨out, ret'⟩, made, same⟩ := Option.map_eq_some_iff.mp last.symm
      have same : ret' = ret := same
      exact ⟨out, ret', made, same ▸ ok⟩

theorem Converts.turns_next (converts : Converts f src r dst w turn)
    (ahead : Ahead src r dst w n) (inside : j < n) (ran : turns turn j mem = some (mem', 0))
    (made : f (record mem src r j) = some (out, ret)) :
    ∃ mem₁, turns turn (j + 1) mem = some (mem₁, ret) := by
  have last := converts.turns_ret ahead inside ran (Int.le_refl 0)
  rw [made] at last
  obtain ⟨⟨mem₁, ret'⟩, ran₁, same⟩ := Option.map_eq_some_iff.mp last
  exact ⟨mem₁, ran₁.trans (congrArg some (Prod.ext rfl same))⟩

/-- A loop that refuses no record comes to its end. -/
theorem Converts.turns_all (converts : Converts f src r dst w turn) (ahead : Ahead src r dst w n)
    (inside : j ≤ n) (all : ∀ k < j, ∃ out, f (record mem src r k) = some (out, 0)) :
    ∃ mem', turns turn j mem = some (mem', 0) := by
  induction j with
  | zero => exact ⟨mem, rfl⟩
  | succ j ih =>
    obtain ⟨mem₁, before⟩ := ih (Nat.le_of_succ_le inside)
      fun k less => all k (Nat.lt_succ_of_lt less)
    obtain ⟨out, made⟩ := all j (Nat.lt_succ_self j)
    exact converts.turns_next ahead inside before made

/-- A loop ends with the first record that is refused. -/
theorem Converts.turns_stop (converts : Converts f src r dst w turn) (ahead : Ahead src r dst w n)
    (inside : j ≤ n)
    (settles : ∀ k < j, ∃ out ret, f (record mem src r k) = some (out, ret) ∧
      (ret = 0 ∨ ret = -1))
    (refused : ∃ k < j, ∃ out, f (record mem src r k) = some (out, -1)) :
    ∃ mem', turns turn j mem = some (mem', -1) := by
  induction j with
  | zero =>
    obtain ⟨k, less, _⟩ := refused
    exact absurd less (Nat.not_lt_zero k)
  | succ j ih =>
    have settles' := fun k less => settles k (Nat.lt_succ_of_lt less)
    by_cases early : ∃ k < j, ∃ out, f (record mem src r k) = some (out, -1)
    · obtain ⟨mem', ran⟩ := ih (Nat.le_of_succ_le inside) settles' early
      exact ⟨mem', by rw [turns, ran]; rfl⟩
    · obtain ⟨mem₁, before⟩ := converts.turns_all ahead (Nat.le_of_succ_le inside) (by
        intro k less
        obtain ⟨out, ret, made, rfl | rfl⟩ := settles' k less
        · exact ⟨out, made⟩
        · exact absurd ⟨k, less, out, made⟩ early)
      obtain ⟨k, less, out, made⟩ := refused
      have here : k = j := by
        rcases Nat.lt_or_eq_of_le (Nat.le_of_lt_succ less) with earlier | same
        · exact absurd ⟨k, earlier, out, made⟩ early
        · exact same
      subst here
      exact converts.turns_next ahead inside before made

/-- Where two loops convert the same records, they come to the same end, with the same table. -/
theorem Converts.same_table (converts : Converts f src r dst w turn)
    (converts' : Converts f src r dst' w turn') (ahead : Ahead src r dst w n)
    (ahead' : Ahead src r dst' w n) (inside : j ≤ n) :
    (turns turn j mem).map Prod.snd = (turns turn' j mem).map Prod.snd ∧
      ∀ mem₁ mem₂ ret, turns turn j mem = some (mem₁, ret) → turns turn' j mem = some (mem₂, ret) →
        0 ≤ ret → read mem₁ dst (w * j) = read mem₂ dst' (w * j) := by
  constructor
  · induction j with
    | zero => rfl
    | succ j ih =>
      have same := ih (Nat.le_of_succ_le inside)
      cases first : turns turn j mem with
      | none =>
        rw [first] at same
        have second := Option.map_eq_none_iff.mp same.symm
        rw [turns, turns, first, second]
        rfl
      | some s =>
        rw [first] at same
        obtain ⟨s', second, ret⟩ := Option.map_eq_some_iff.mp same.symm
        by_cases failed : s.2 < 0
        · have failed' : s'.2 < 0 := ret ▸ failed
          rw [turns, turns, first, second, Option.bind_some, Option.bind_some, if_pos failed,
            if_pos failed']
          exact congrArg some ret.symm
        · have ok : 0 ≤ s.2 := Int.not_lt.mp failed
          have ok' : 0 ≤ s'.2 := ret ▸ ok
          rw [converts.turns_ret ahead inside first ok,
            converts'.turns_ret ahead' inside second ok']
  · intro mem₁ mem₂ ret first second ok
    obtain ⟨_, made⟩ := converts.turns_reads ahead inside first ok
    obtain ⟨_, made'⟩ := converts'.turns_reads ahead' inside second ok
    apply table_eq
    intro k less
    obtain ⟨_, here⟩ := made k less
    obtain ⟨_, there⟩ := made' k less
    exact congrArg Prod.fst (Option.some.inj (here.symm.trans there))

end
end MoonInWater.Bytes
