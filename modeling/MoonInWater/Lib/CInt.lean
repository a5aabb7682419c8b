import Mathlib.Tactic.Common
import Mathlib.Algebra.Order.Ring.Int

/-! Two's-complement machine integers as integers with explicit wrap-around, and
words that pack a status nibble under a count in units of sixteen. -/
namespace MoonInWater.CInt

/-- Conversion to a 32-bit `int`: the literals are 2^31 and 2^32. The conversions are
irreducible, as comparing two of them by unfolding would count up to the literals. -/
@[irreducible] def i32 (x : Int) : Int := (x + 2147483648) % 4294967296 - 2147483648

/-- Conversion to a 32-bit `unsigned`. -/
@[irreducible] def u32 (x : Int) : Int := x % 4294967296

/-- Conversion to a 64-bit `unsigned long long`. -/
@[irreducible] def u64 (x : Int) : Int := x % 18446744073709551616

theorem i32_eq (low : -2 ^ 31 ≤ x) (high : x < 2 ^ 31) : i32 x = x := by
  simp only [i32]
  omega

theorem u32_eq (low : 0 ≤ x) (high : x < 2 ^ 32) : u32 x = x := by
  simp only [u32]
  omega

theorem u64_eq (low : 0 ≤ x) (high : x < 2 ^ 64) : u64 x = x := by
  simp only [u64]
  omega

/-- `w & 0xf`, for both signs. -/
def nibble (w : Int) : Int := w % 16

/-- `w | (1 << k)`. -/
def setBit (w : Int) (k : Nat) : Int := if w / 2 ^ k % 2 = 1 then w else w + 2 ^ k

/-- `w & (1 << k)`. -/
def hasBit (w : Int) (k : Nat) : Prop := w / 2 ^ k % 2 = 1

instance (w : Int) (k : Nat) : Decidable (hasBit w k) := inferInstanceAs (Decidable (_ = _))

theorem setBit_cases (w : Int) (k : Nat) :
    (w / 2 ^ k % 2 = 1 ∧ setBit w k = w) ∨ (w / 2 ^ k % 2 = 0 ∧ setBit w k = w + 2 ^ k) := by
  by_cases set : w / 2 ^ k % 2 = 1
  · exact .inl ⟨set, if_pos set⟩
  · exact .inr ⟨by omega, if_neg set⟩

/-- The word counts `n` units of sixteen above its nibble, in an `int` that has
room for them. -/
def Counts (w : Int) (n : Nat) : Prop := w / 16 = n ∧ n < 2 ^ 27

theorem Counts.bounds (counts : Counts w n) : 16 * n ≤ w ∧ w < 16 * n + 16 ∧ w < 2 ^ 31 := by
  obtain ⟨count, room⟩ := counts
  omega

end MoonInWater.CInt
