import MoonInWater.Sync.ChangeList

/-! Which lists from the network stay inside the array that their decoder allocates. -/
namespace MoonInWater.Sync.ChangeList
open Endian MoonNum CInt

/-- A list is refused, or has the announced number of elements; in either case no element lies
outside the array. -/
structure Safe (announced : Nat) (u : Unpacked) : Prop where
  answer : u.ret = -1 ∨ u.ret = 0 ∧ 0 ≤ u.num ∧ u.num = announced
  inside : ∀ i, (u.ids i).isSome = true → idsLen * (i + 1) ≤ toU64 u.len

/-- The number of whole elements in some bytes, up to a bound. -/
def held (order : ByteOrder) (fields : Nat) : Nat → List UInt8 → Nat
  | 0, _ => 0
  | bound + 1, bytes =>
    let (ret, _, rest) := getNums order fields bytes
    if ret < 0 then 0 else held order fields bound rest + 1

/-- The size that a decoder asks malloc for. -/
def arraySize (num : Int) : Nat := toU64 (i32 (u64 (idsLen * num)))

/-- There is no memory, or the array has room for the elements that the bytes hold, and these are
fewer than announced unless the announced number is an int. -/
def Fits (malloc : Nat → Bool) (announced : Nat) (num : Int) (elements : Nat) : Prop :=
  malloc (arraySize num) = true →
    idsLen * elements ≤ arraySize num ∧ (elements = num.toNat → announced < 2 ^ 31)

section elements
variable {order : ByteOrder} {fields : Nat} {elem : Nat → List Nat → Nat × List Nat}

variable (order fields) in
theorem held_le (bound : Nat) (bytes : List UInt8) : held order fields bound bytes ≤ bound := by
  induction bound generalizing bytes with
  | zero => exact Nat.le_refl 0
  | succ bound ih =>
    rcases read : getNums order fields bytes with ⟨ret, nums, rest⟩
    rw [held, read]
    by_cases ends : ret < 0
    · simp only [if_pos ends]
      exact Nat.zero_le _
    · simp only [if_neg ends]
      exact Nat.succ_le_succ (ih rest)

variable (order fields elem) in
/-- A decoder writes the elements that the bytes hold, one after the other. -/
theorem unpackElems_held (rounds i sum : Nat) (ids : Nat → Option (List Nat))
    (bytes : List UInt8) :
    (unpackElems order fields elem rounds i sum ids bytes).1 =
        (if held order fields rounds bytes = rounds then 0 else -1) ∧
      ∀ j, ((unpackElems order fields elem rounds i sum ids bytes).2.1 j).isSome = true ↔
        (ids j).isSome = true ∨ i ≤ j ∧ j < i + held order fields rounds bytes := by
  induction rounds generalizing i sum ids bytes with
  | zero =>
    refine ⟨rfl, fun j => ⟨.inl, ?_⟩⟩
    rintro (old | ⟨low, high⟩)
    · exact old
    · exact absurd low (Nat.not_le.mpr high)
  | succ rounds ih =>
    rcases read : getNums order fields bytes with ⟨ret, nums, rest⟩
    rw [unpackElems, held, read]
    by_cases ends : ret < 0
    · simp only [if_pos ends]
      refine ⟨rfl, fun j => ⟨.inl, ?_⟩⟩
      rintro (old | ⟨low, high⟩)
      · exact old
      · exact absurd low (Nat.not_le.mpr high)
    · simp only [if_neg ends]
      obtain ⟨answer, written⟩ := ih (i + 1) (elem sum nums).1
        (Function.update ids i (some (elem sum nums).2)) rest
      refine ⟨answer.trans ?_, fun j => (written j).trans ?_⟩
      · simp only [Nat.add_right_cancel_iff]
      · by_cases here : j = i
        · subst here
          rw [Function.update_self]
          exact ⟨fun _ => .inr ⟨Nat.le_refl j, by omega⟩, fun _ => .inl rfl⟩
        · rw [Function.update_of_ne here]
          refine or_congr Iff.rfl ?_
          omega

end elements

section lists
variable {order : ByteOrder} {malloc : Nat → Bool} {fields : Nat}
variable {elem : Nat → List Nat → Nat × List Nat} {announced : Nat} {rest : List UInt8}

theorem arraySize_eq (num : Int) : toU64 (i32 (u64 (idsLen * num))) = arraySize num := rfl

theorem i32_announced : 0 ≤ i32 announced ∧ i32 announced = announced ↔ announced < 2 ^ 31 := by
  constructor
  · rintro ⟨_, same⟩
    simp only [i32] at same
    omega
  · intro small
    have same : i32 announced = announced := i32_eq (by omega) (by omega)
    rw [same]
    exact ⟨Int.natCast_nonneg _, rfl⟩

/-- `num` is the int of the announced number. -/
theorem unpackArray_safe_iff {num : Int}
    (int : 0 ≤ num ∧ num = announced ↔ announced < 2 ^ 31) :
    Safe announced (unpackArray order malloc fields elem num rest) ↔
      Fits malloc announced num (held order fields num.toNat rest) := by
  obtain ⟨answer, written⟩ :=
    unpackElems_held order fields elem num.toNat 0 0 (fun _ => none) rest
  have few := held_le order fields num.toNat rest
  rw [unpackArray, arraySize_eq]
  by_cases memory : malloc (arraySize num) = true
  · rw [if_pos memory]
    constructor
    · rintro ⟨returned, inside⟩ _
      constructor
      · cases count : held order fields num.toNat rest with
        | zero => exact Nat.zero_le _
        | succ last =>
          refine inside last ((written last).mpr (.inr ⟨Nat.zero_le _, ?_⟩))
          omega
      · intro all
        have success := answer.trans (if_pos all)
        rcases returned with failed | ⟨_, low, same⟩
        · cases failed.symm.trans success
        · exact int.mp ⟨low, same⟩
    · intro fits
      obtain ⟨room, small⟩ := fits memory
      constructor
      · by_cases all : held order fields num.toNat rest = num.toNat
        · obtain ⟨low, same⟩ := int.mpr (small all)
          exact .inr ⟨answer.trans (if_pos all), low, same⟩
        · exact .inl (answer.trans (if_neg all))
      · intro i isSome
        rcases (written i).mp isSome with old | ⟨_, high⟩
        · contradiction
        · refine Nat.le_trans (Nat.mul_le_mul_left idsLen ?_) room
          omega
  · rw [if_neg memory]
    refine ⟨fun _ yes => absurd yes memory, fun _ => ⟨.inl rfl, fun i isSome => ?_⟩⟩
    contradiction

/-- Each decoder is safe on some bytes exactly when these end inside the announced number, or the
elements that they hold fit in the array and the announced number, if all are there, in an int. -/
theorem unpack_safe_iff (order : ByteOrder) (malloc : Nat → Bool) (kind : Kind)
    (bytes : List UInt8) :
    Safe (getFromMoonNum order bytes).2.1 (kind.unpack order malloc bytes) ↔
      EndsInside bytes ∨ Fits malloc (getFromMoonNum order bytes).2.1
        (i32 (getFromMoonNum order bytes).2.1) (held order kind.width
          (i32 (getFromMoonNum order bytes).2.1).toNat (getFromMoonNum order bytes).2.2) := by
  have outcome := getFromMoonNum_outcome order bytes
  rw [Kind.unpack_eq]
  by_cases ends : EndsInside bytes
  · have failed : getFromMoonNum order bytes =
        (-1, (getFromMoonNum order bytes).2.1, (getFromMoonNum order bytes).2.2) :=
      Prod.ext (outcome.failed ends) rfl
    rw [unpackData_refused failed]
    refine ⟨fun _ => .inl ends, fun _ => ⟨.inl rfl, fun i isSome => ?_⟩⟩
    contradiction
  · obtain ⟨success, _⟩ := outcome.found ends
    have found : getFromMoonNum order bytes =
        (0, (getFromMoonNum order bytes).2.1, (getFromMoonNum order bytes).2.2) :=
      Prod.ext success rfl
    rw [unpackData_announced found, unpackArray_safe_iff i32_announced, or_iff_right ends]

/-- Where the array has fewer than 2^31 bytes, every list is decoded safely. -/
theorem unpack_safe_small (kind : Kind) {bytes : List UInt8}
    (small : idsLen * (getFromMoonNum order bytes).2.1 < 2 ^ 31) :
    Safe (getFromMoonNum order bytes).2.1 (kind.unpack order malloc bytes) := by
  have outcome := getFromMoonNum_outcome order bytes
  rw [Kind.unpack_eq]
  by_cases ends : EndsInside bytes
  · have failed : getFromMoonNum order bytes =
        (-1, (getFromMoonNum order bytes).2.1, (getFromMoonNum order bytes).2.2) :=
      Prod.ext (outcome.failed ends) rfl
    rw [unpackData_refused failed]
    refine ⟨.inl rfl, fun i isSome => ?_⟩
    contradiction
  obtain ⟨success, _⟩ := outcome.found ends
  have found : getFromMoonNum order bytes =
      (0, (getFromMoonNum order bytes).2.1, (getFromMoonNum order bytes).2.2) :=
    Prod.ext success rfl
  rw [unpackData_announced found, unpackArray_safe_iff i32_announced]
  generalize (getFromMoonNum order bytes).2.1 = n at small
  intro _
  rw [idsLen] at small
  have narrow : i32 (n : Int) = n := i32_eq (by omega) (by omega)
  have size : arraySize n = idsLen * n := by
    rw [arraySize, idsLen, u64_eq (by omega) (by omega), i32_eq (by omega) (by omega), toU64,
      u64_eq (by omega) (by omega)]
    omega
  rw [narrow, size, Int.toNat_natCast]
  exact ⟨Nat.mul_le_mul_left idsLen (held_le ..), fun _ => by omega⟩

end lists

/-- The count 178956971, whose array has 8 bytes, and two elements of the numbers 1 and 1. -/
def overflowing : List UInt8 := [171, 170, 85, 21, 1, 0, 1, 0, 1, 0, 1, 0]

/-- The second element lies behind the array. -/
theorem unpackNewData_overflows :
    ¬ Safe (getFromMoonNum .little overflowing).2.1
      (unpackNewData .little (fun _ => true) overflowing) := by
  intro safe
  have inside := safe.inside 1 (by decide +kernel)
  exact absurd inside (by decide +kernel)

end MoonInWater.Sync.ChangeList
