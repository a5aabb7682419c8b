import MoonInWater.Lib.Bytes
import Mathlib.Data.Nat.Bitwise

/-! Exclusive or of numbers and of regions in a memory of bytes. -/
namespace MoonInWater.Bytes
open Endian

/-- The region at `dst` with the one at `src` in it. -/
def xored (mem : Memory) (dst src n : Nat) : Memory := fun a =>
  if dst ≤ a ∧ a < dst + n then mem a ^^^ mem (src + (a - dst)) else mem a

/-- Two regions that do not overlap. -/
def Apart (dst src n : Nat) : Prop := dst + n ≤ src ∨ src + n ≤ dst

section
variable {order : ByteOrder} {mem mem' : Memory} {p dst src dst' src' n m k x y i a : Nat}
variable {bytes bytes' : List UInt8}

theorem little_xor (k x y : Nat) :
    little k (x ^^^ y) = List.zipWith (· ^^^ ·) (little k x) (little k y) := by
  induction k generalizing x y with
  | zero => rfl
  | succ k ih =>
    have rest : (x ^^^ y) / 256 = x / 256 ^^^ y / 256 := Nat.xor_div_two_pow (n := 8)
    rw [little, little, little, List.zipWith_cons_cons, rest, ih, UInt8.ofNat_xor]

theorem store_xor (order : ByteOrder) (k x y : Nat) :
    store order k (x ^^^ y) = List.zipWith (· ^^^ ·) (store order k x) (store order k y) := by
  cases order with
  | little => exact little_xor k x y
  | big =>
    change (little k (x ^^^ y)).reverse = List.zipWith _ (little k x).reverse (little k y).reverse
    rw [little_xor, List.reverse_zipWith (by simp)]

theorem store_load (order : ByteOrder) (size : bytes.length = k) :
    store order k (load order bytes) = bytes := by
  subst size
  cases order with
  | little => exact little_littleNum bytes
  | big =>
    have back := little_littleNum bytes.reverse
    rw [List.length_reverse] at back
    change (little bytes.length (littleNum bytes.reverse)).reverse = bytes
    rw [back, List.reverse_reverse]

theorem write_at (inside : i < bytes.length) : write mem p bytes (p + i) = bytes[i] := by
  induction bytes generalizing mem p i with
  | nil => exact absurd inside (Nat.not_lt_zero i)
  | cons b bytes ih =>
    cases i with
    | zero =>
      rw [Nat.add_zero, write, write_apart (.inl (Nat.lt_succ_self p)), Function.update_self]
      rfl
    | succ i =>
      have next : p + (i + 1) = p + 1 + i := by omega
      rw [write, next, ih (Nat.lt_of_succ_lt_succ inside)]
      rfl

theorem read_get (inside : i < (read mem p n).length) : (read mem p n)[i] = mem (p + i) := by
  induction n generalizing p i with
  | zero => exact absurd inside (Nat.not_lt_zero i)
  | succ n ih =>
    cases i with
    | zero => rfl
    | succ i =>
      have next : p + (i + 1) = p + 1 + i := by omega
      rw [next]
      exact ih (Nat.lt_of_succ_lt_succ inside)

theorem read_eq_iff : read mem p n = read mem' dst n ↔ ∀ i < n, mem (p + i) = mem' (dst + i) := by
  constructor
  · intro same i less
    have left : i < (read mem p n).length := by rwa [read_length]
    have right : i < (read mem' dst n).length := by rwa [read_length]
    rw [← read_get left, ← read_get right]
    simp only [same]
  · intro same
    apply List.ext_getElem (by simp)
    intro i left right
    rw [read_get left, read_get right]
    exact same i (by rwa [read_length] at left)

/-- A word that is combined with another one is combined byte for byte. -/
theorem write_xor (order : ByteOrder) (mem : Memory) (dst src k : Nat) :
    write mem dst (store order k
      (load order (read mem dst k) ^^^ load order (read mem src k))) = xored mem dst src k := by
  have bytes : store order k (load order (read mem dst k) ^^^ load order (read mem src k)) =
      List.zipWith (· ^^^ ·) (read mem dst k) (read mem src k) := by
    rw [store_xor, store_load order read_length, store_load order read_length]
  have size : (List.zipWith (· ^^^ ·) (read mem dst k) (read mem src k)).length = k := by simp
  rw [bytes]
  funext a
  unfold xored
  split
  next inside =>
    obtain ⟨i, rfl⟩ := Nat.exists_eq_add_of_le inside.1
    have less : i < k := by omega
    rw [write_at (by rw [size]; exact less), List.getElem_zipWith, read_get, read_get,
      Nat.add_sub_cancel_left]
  next outside =>
    apply write_apart
    omega

theorem xored_at (inside : i < n) :
    xored mem dst src n (dst + i) = mem (dst + i) ^^^ mem (src + i) := by
  have here : xored mem dst src n (dst + i) =
      mem (dst + i) ^^^ mem (src + (dst + i - dst)) := if_pos (by omega)
  rw [here, Nat.add_sub_cancel_left]

@[simp] theorem xored_zero (mem : Memory) (dst src : Nat) : xored mem dst src 0 = mem := by
  funext a
  exact if_neg (by omega)

/-- A region in two parts, one after the other. -/
theorem xored_add (apart : Apart dst src (n + m)) :
    xored (xored mem dst src n) (dst + n) (src + n) m = xored mem dst src (n + m) := by
  unfold Apart at apart
  funext a
  unfold xored
  by_cases first : dst ≤ a ∧ a < dst + n
  · rw [if_neg (by omega), if_pos first, if_pos (by omega)]
  · by_cases second : dst + n ≤ a ∧ a < dst + n + m
    · have source : src + n + (a - (dst + n)) = src + (a - dst) := by omega
      rw [if_pos second, if_neg first, if_neg (by omega), if_pos (by omega), source]
    · rw [if_neg second, if_neg first, if_neg (by omega)]

theorem xored_source (apart : Apart dst src n) (inside : i < n) :
    xored mem dst src n (src + i) = mem (src + i) := by
  unfold Apart at apart
  exact if_neg (by omega)

/-- The same region a second time takes it back. -/
theorem xored_twice (apart : Apart dst src n) :
    xored (xored mem dst src n) dst src n = mem := by
  funext a
  by_cases inside : dst ≤ a ∧ a < dst + n
  · have source : xored mem dst src n (src + (a - dst)) = mem (src + (a - dst)) :=
      xored_source apart (by omega)
    have here : xored mem dst src n a = mem a ^^^ mem (src + (a - dst)) := if_pos inside
    change (if _ then _ else _) = _
    rw [if_pos inside, source, here, UInt8.xor_assoc, UInt8.xor_self, UInt8.xor_zero]
  · change (if _ then _ else _) = _
    rw [if_neg inside]
    exact if_neg inside

end
end MoonInWater.Bytes
