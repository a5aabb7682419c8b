import MoonInWater.Lib.Bytes

/-! The bytes of a number in memory by their weight, and the extension of signed and unsigned
numbers by further bytes. -/
namespace MoonInWater.Bytes
open Endian

/-- The address of the byte of weight `256 ^ j` of a number of `k` bytes at `p`. -/
def place (order : ByteOrder) (p k j : Nat) : Nat :=
  match order with
  | .little => p + j
  | .big => p + k - 1 - j

/-- A number of `k` bytes in two's complement. -/
def signed (k x : Nat) : Int := if x < 256 ^ k / 2 then x else x - (256 ^ k : Nat)

section
variable {order : ByteOrder} {mem : Memory} {p k i j s m x high : Nat} {f : Nat → UInt8}

theorem place_inside (inside : j < k) : p ≤ place order p k j ∧ place order p k j < p + k := by
  cases order with
  | little =>
    change p ≤ p + j ∧ p + j < p + k
    omega
  | big =>
    change p ≤ p + k - 1 - j ∧ p + k - 1 - j < p + k
    omega

theorem place_inj (inside : i < k) (inside' : j < k)
    (same : place order p k i = place order p k j) : i = j := by
  cases order with
  | little =>
    change p + i = p + j at same
    omega
  | big =>
    change p + k - 1 - i = p + k - 1 - j at same
    omega

theorem read_eq_map : read mem p k = (List.range k).map fun j => mem (p + j) := by
  induction k generalizing p with
  | zero => rfl
  | succ k ih =>
    rw [read, ih, List.range_succ_eq_map, List.map_cons, List.map_map, Nat.add_zero]
    congr 2
    funext j
    exact congrArg mem (Nat.succ_add_eq_add_succ p j)

theorem load_eq_digits :
    load order (read mem p k) =
      littleNum ((List.range k).map fun j => mem (place order p k j)) := by
  rw [read_eq_map]
  cases order with
  | little => rfl
  | big =>
    change littleNum (List.reverse _) = _
    congr 1
    apply List.ext_getElem
    · simp
    · intro j inside inside'
      simp only [List.length_reverse, List.length_map, List.length_range] at inside
      have same : p + (k - 1 - j) = p + k - 1 - j := by omega
      simp only [List.getElem_reverse, List.getElem_map, List.getElem_range, List.length_map,
        List.length_range, place, same]

theorem load_lt : load order (read mem p k) < 256 ^ k := by
  rw [load_eq_digits]
  have small := littleNum_lt ((List.range k).map fun j => mem (place order p k j))
  rwa [List.length_map, List.length_range] at small

/-- The lower and the higher bytes of a number. -/
theorem digits_split (s m : Nat) :
    littleNum ((List.range (s + m)).map f) =
      littleNum ((List.range s).map f) +
        256 ^ s * littleNum ((List.range m).map fun j => f (s + j)) := by
  rw [List.range_add, List.map_append, List.map_map, littleNum_append, List.length_map,
    List.length_range]
  rfl

theorem digits_lt : littleNum ((List.range k).map f) < 256 ^ k := by
  have small := littleNum_lt ((List.range k).map f)
  rwa [List.length_map, List.length_range] at small

theorem digits_high (s m : Nat) :
    littleNum ((List.range m).map fun j => f (s + j)) =
      littleNum ((List.range (s + m)).map f) / 256 ^ s := by
  have small : littleNum ((List.range s).map f) < 256 ^ s := digits_lt
  rw [digits_split, Nat.add_mul_div_left _ _ (Nat.pow_pos (by decide)),
    Nat.div_eq_of_lt small, Nat.zero_add]

/-- Bytes of 255 each. -/
theorem digits_ones (m : Nat) : littleNum ((List.range m).map fun _ => 255) = 256 ^ m - 1 := by
  induction m with
  | zero => rfl
  | succ m ih =>
    have positive : 0 < 256 ^ m := Nat.pow_pos (by decide)
    have value : (255 : UInt8).toNat = 255 := rfl
    rw [List.range_succ, List.map_append, littleNum_append, ih, List.length_map, List.length_range,
      pow_succ, List.map_cons, List.map_nil, littleNum, littleNum, value]
    omega

/-- The sign of a number is that of its highest byte. -/
theorem digits_half (k : Nat) :
    littleNum ((List.range (k + 1)).map f) < 256 ^ (k + 1) / 2 ↔ (f k).toNat < 128 := by
  have small : littleNum ((List.range k).map f) < 256 ^ k := digits_lt
  have last : littleNum ((List.range 1).map fun j => f (k + j)) = (f k).toNat := rfl
  have half : 256 ^ (k + 1) / 2 = 256 ^ k * 128 := by
    rw [pow_succ]
    omega
  rw [digits_split, last, half]
  constructor
  · intro below
    by_contra above
    have least : 256 ^ k * 128 ≤ 256 ^ k * (f k).toNat := Nat.mul_le_mul_left _ (by omega)
    omega
  · intro below
    have most : 256 ^ k * ((f k).toNat + 1) ≤ 256 ^ k * 128 := Nat.mul_le_mul_left _ below
    rw [Nat.mul_succ] at most
    omega

/-- A signed number keeps its value under an extension by the bytes of its sign, and by no
others. -/
theorem signed_extend (positive : 0 < s) (small : x < 256 ^ s) (small' : high < 256 ^ m) :
    signed (s + m) (x + 256 ^ s * high) = signed s x ↔
      high = if x < 256 ^ s / 2 then 0 else 256 ^ m - 1 := by
  obtain ⟨r, rfl⟩ := Nat.exists_eq_add_of_lt positive
  have even : 256 ^ (0 + r + 1) = 2 * (256 ^ r * 128) := by
    rw [Nat.zero_add, pow_succ]
    omega
  have whole : 256 ^ (0 + r + 1 + m) = 2 * (256 ^ r * 128 * 256 ^ m) := by
    rw [pow_add, even, Nat.mul_assoc]
  have room : 256 ^ (0 + r + 1) * high + 256 ^ (0 + r + 1) ≤ 256 ^ (0 + r + 1) * 256 ^ m := by
    have most : 256 ^ (0 + r + 1) * (high + 1) ≤ 256 ^ (0 + r + 1) * 256 ^ m :=
      Nat.mul_le_mul_left _ small'
    rwa [Nat.mul_succ] at most
  have none' : high = 0 ↔ 256 ^ (0 + r + 1) * high = 0 := by
    rw [Nat.mul_eq_zero]
    constructor
    · exact Or.inr
    · rintro (zero | zero)
      · omega
      · exact zero
  have all : high = 256 ^ m - 1 ↔
      256 ^ (0 + r + 1) * high + 256 ^ (0 + r + 1) = 256 ^ (0 + r + 1) * 256 ^ m := by
    rw [← Nat.mul_succ]
    constructor
    · intro ones
      rw [ones]
      congr 1
      omega
    · intro same
      have next := Nat.eq_of_mul_eq_mul_left (by omega) same
      omega
  have total : 256 ^ (0 + r + 1) * 256 ^ m = 256 ^ (0 + r + 1 + m) := (pow_add ..).symm
  have least : 256 ^ r * 128 ≤ 256 ^ r * 128 * 256 ^ m :=
    Nat.le_mul_of_pos_right _ (Nat.pow_pos (by decide))
  rw [total] at room all
  unfold signed
  by_cases low : x < 256 ^ (0 + r + 1) / 2
  · rw [if_pos low, if_pos low, none']
    by_cases below : x + 256 ^ (0 + r + 1) * high < 256 ^ (0 + r + 1 + m) / 2
    · rw [if_pos below]
      omega
    · rw [if_neg below]
      omega
  · rw [if_neg low, if_neg low, all]
    by_cases below : x + 256 ^ (0 + r + 1) * high < 256 ^ (0 + r + 1 + m) / 2
    · rw [if_pos below]
      omega
    · rw [if_neg below]
      omega

end
end MoonInWater.Bytes
