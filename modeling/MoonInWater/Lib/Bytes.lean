import MoonInWater.Lib.Endian

/-! A memory of bytes, and numbers that stand in it in either byte order. -/
namespace MoonInWater.Bytes
open Endian

/-- The bytes by their addresses. -/
abbrev Memory := Nat → UInt8

def read (mem : Memory) (p : Nat) : Nat → List UInt8
  | 0 => []
  | n + 1 => mem p :: read mem (p + 1) n

def write (mem : Memory) (p : Nat) : List UInt8 → Memory
  | [] => mem
  | b :: bytes => write (Function.update mem p b) (p + 1) bytes

section memory
variable {mem mem' : Memory} {p q n : Nat} {bytes bytes' : List UInt8}

theorem read_succ : read mem p (n + 1) = mem p :: read mem (p + 1) n := rfl

theorem write_cons {b : UInt8} :
    write mem p (b :: bytes) = write (Function.update mem p b) (p + 1) bytes := rfl

theorem write_apart (outside : q < p ∨ p + bytes.length ≤ q) : write mem p bytes q = mem q := by
  induction bytes generalizing mem p with
  | nil => rfl
  | cons b bytes ih =>
    rw [List.length_cons] at outside
    have apart : q ≠ p := by omega
    rw [write_cons, ih (by omega), Function.update_of_ne apart]

theorem write_append :
    write mem p (bytes ++ bytes') = write (write mem p bytes) (p + bytes.length) bytes' := by
  induction bytes generalizing mem p with
  | nil => rfl
  | cons b bytes ih =>
    rw [List.cons_append, write_cons, write_cons, ih, List.length_cons, Nat.add_right_comm p,
      Nat.add_assoc p]

@[simp] theorem read_length : (read mem p n).length = n := by
  induction n generalizing p with
  | zero => rfl
  | succ n ih => rw [read_succ, List.length_cons, ih]

theorem read_write : read (write mem p bytes) p bytes.length = bytes := by
  induction bytes generalizing mem p with
  | nil => rfl
  | cons b bytes ih =>
    have here : write mem p (b :: bytes) p = b := by
      rw [write_cons, write_apart (.inl (Nat.lt_succ_self p)), Function.update_self]
    rw [List.length_cons, read_succ, here]
    exact congrArg (b :: ·) ih

theorem read_written (size : bytes.length = n) : read (write mem p bytes) p n = bytes := by
  rw [← size]
  exact read_write

theorem read_congr (same : ∀ a, p ≤ a → a < p + n → mem a = mem' a) :
    read mem p n = read mem' p n := by
  induction n generalizing p with
  | zero => rfl
  | succ n ih =>
    have rest : read mem (p + 1) n = read mem' (p + 1) n := by
      apply ih
      intro a low high
      exact same a (by omega) (by omega)
    rw [read_succ, read_succ, rest, same p (Nat.le_refl p) (by omega)]

theorem read_append (n k : Nat) : read mem p (n + k) = read mem p n ++ read mem (p + n) k := by
  induction n generalizing p with
  | zero =>
    rw [Nat.zero_add, Nat.add_zero]
    rfl
  | succ n ih => rw [Nat.succ_add, read_succ, ih, read_succ, Nat.add_right_comm p, Nat.add_assoc p,
      List.cons_append]

end memory

/-- The lowest bytes of a number, the lowest one first. -/
def little : Nat → Nat → List UInt8
  | 0, _ => []
  | k + 1, x => UInt8.ofNat x :: little k (x / 256)

def littleNum : List UInt8 → Nat
  | [] => 0
  | b :: bytes => b.toNat + 256 * littleNum bytes

theorem little_succ (k x : Nat) : little (k + 1) x = UInt8.ofNat x :: little k (x / 256) := rfl

theorem littleNum_nil : littleNum [] = 0 := rfl

theorem littleNum_cons (b : UInt8) (bytes : List UInt8) :
    littleNum (b :: bytes) = b.toNat + 256 * littleNum bytes := rfl

def store (order : ByteOrder) (k x : Nat) : List UInt8 :=
  match order with
  | .little => little k x
  | .big => (little k x).reverse

def load (order : ByteOrder) (bytes : List UInt8) : Nat :=
  match order with
  | .little => littleNum bytes
  | .big => littleNum bytes.reverse

/-- The integer types that have a conversion to the little-endian order. -/
inductive Width where
  | uint16
  | uint32
  | uint64

def Width.size : Width → Nat
  | .uint16 => 2
  | .uint32 => 4
  | .uint64 => 8

def convert16 (order : ByteOrder) (x : Nat) : Nat :=
  match order with
  | .little => x
  | .big => swapHalves 256 x

def convert64 (order : ByteOrder) (x : Nat) : Nat :=
  match order with
  | .little => x
  | .big => swapHalves 4294967296 (convert32 .big (x / 4294967296) * 4294967296 +
      convert32 .big (x % 4294967296))

def Width.convert (order : ByteOrder) : Width → Nat → Nat
  | .uint16 => convert16 order
  | .uint32 => convert32 order
  | .uint64 => convert64 order

@[simp] theorem little_length (k x : Nat) : (little k x).length = k := by
  induction k generalizing x with
  | zero => rfl
  | succ k ih => rw [little_succ, List.length_cons, ih]

@[simp] theorem store_length (order : ByteOrder) (k x : Nat) : (store order k x).length = k := by
  cases order <;> simp [store]

theorem littleNum_little {k x : Nat} (small : x < 256 ^ k) : littleNum (little k x) = x := by
  induction k generalizing x with
  | zero =>
    rw [pow_zero] at small
    have none : littleNum (little 0 x) = 0 := rfl
    omega
  | succ k ih =>
    have rest : x / 256 < 256 ^ k := by
      rw [pow_succ] at small
      omega
    rw [little_succ, littleNum_cons, ih rest, UInt8.toNat_ofNat']
    omega

theorem littleNum_lt (bytes : List UInt8) : littleNum bytes < 256 ^ bytes.length := by
  induction bytes with
  | nil => exact Nat.one_pos
  | cons b bytes ih =>
    have small := b.toNat_lt
    rw [littleNum_cons, List.length_cons, pow_succ]
    omega

theorem littleNum_append (bytes bytes' : List UInt8) :
    littleNum (bytes ++ bytes') = littleNum bytes + 256 ^ bytes.length * littleNum bytes' := by
  induction bytes with
  | nil => simp [littleNum_nil]
  | cons b bytes ih =>
    have power : 256 ^ (bytes.length + 1) = 256 * 256 ^ bytes.length := Nat.pow_succ'
    rw [List.cons_append, littleNum_cons, littleNum_cons, ih, List.length_cons, power, Nat.mul_add,
      Nat.add_assoc, Nat.mul_assoc]

theorem ofNat_toNat (b : UInt8) (x : Nat) : UInt8.ofNat (b.toNat + 256 * x) = b := by
  apply UInt8.toNat_inj.mp
  have small := b.toNat_lt
  rw [UInt8.toNat_ofNat']
  omega

theorem little_littleNum (bytes : List UInt8) : little bytes.length (littleNum bytes) = bytes := by
  induction bytes with
  | nil => rfl
  | cons b bytes ih =>
    have small := b.toNat_lt
    have rest : (b.toNat + 256 * littleNum bytes) / 256 = littleNum bytes := by omega
    rw [List.length_cons, littleNum_cons, little_succ, rest, ih, ofNat_toNat]

theorem convert32_reverse {bytes : List UInt8} (size : bytes.length = 4) :
    convert32 .big (littleNum bytes) = littleNum bytes.reverse := by
  match bytes, size with
  | [a, b, c, d], _ =>
    have value : littleNum [a, b, c, d] = ofBytes d.toNat c.toNat b.toNat a.toNat := by
      simp only [littleNum_cons, littleNum_nil, ofBytes]
      omega
    rw [value, convert32_big a.toNat_lt b.toNat_lt c.toNat_lt]
    simp only [littleNum_cons, littleNum_nil, ofBytes, List.reverse_cons, List.reverse_nil,
      List.nil_append, List.cons_append]
    omega

theorem convert64_reverse {bytes : List UInt8} (size : bytes.length = 8) :
    convert64 .big (littleNum bytes) = littleNum bytes.reverse := by
  have split := List.take_append_drop 4 bytes
  have front : (bytes.take 4).length = 4 := by rw [List.length_take, size]; rfl
  have rear : (bytes.drop 4).length = 4 := by rw [List.length_drop, size]
  generalize bytes.take 4 = low at split front
  generalize bytes.drop 4 = high at split rear
  subst split
  have small := littleNum_lt low
  have small' := littleNum_lt low.reverse
  rw [front] at small
  rw [List.length_reverse, front] at small'
  have value : littleNum (low ++ high) = littleNum high * 4294967296 + littleNum low := by
    rw [littleNum_append, front]
    omega
  have upper : littleNum (low ++ high) / 4294967296 = littleNum high := by omega
  have lower : littleNum (low ++ high) % 4294967296 = littleNum low := by omega
  rw [convert64, upper, lower, convert32_reverse rear, convert32_reverse front,
    swapHalves_eq 4294967296 _ _ small', List.reverse_append, littleNum_append,
    List.length_reverse, rear]
  omega

/-- The converted number of some bytes is the number of the bytes in the other order. -/
theorem convert_reverse (w : Width) {bytes : List UInt8} (size : bytes.length = w.size) :
    w.convert .big (littleNum bytes) = littleNum bytes.reverse := by
  cases w with
  | uint16 =>
    match bytes, size with
    | [a, b], _ =>
      have value : littleNum [a, b] = b.toNat * 256 + a.toNat := by
        simp only [littleNum_cons, littleNum_nil]
        omega
      change swapHalves 256 _ = _
      rw [value, swapHalves_eq 256 _ _ a.toNat_lt]
      simp only [littleNum_cons, littleNum_nil, List.reverse_cons, List.reverse_nil,
        List.nil_append, List.cons_append]
      omega
  | uint32 => exact convert32_reverse size
  | uint64 => exact convert64_reverse size

/-- What a host stores after the conversion is in the little-endian order. -/
theorem store_convert (order : ByteOrder) (w : Width) {x : Nat} (small : x < 256 ^ w.size) :
    store order w.size (w.convert order x) = little w.size x := by
  cases order with
  | little => cases w <;> rfl
  | big =>
    have size := little_length w.size x
    have value := convert_reverse w size
    have back := little_littleNum (little w.size x).reverse
    rw [littleNum_little small] at value
    rw [List.length_reverse, size, ← value] at back
    change (little w.size (w.convert .big x)).reverse = _
    rw [back, List.reverse_reverse]

/-- What a host loads and converts is the number of the bytes in the little-endian order. -/
theorem convert_load (order : ByteOrder) (w : Width) {bytes : List UInt8}
    (size : bytes.length = w.size) : w.convert order (load order bytes) = littleNum bytes := by
  cases order with
  | little => cases w <;> rfl
  | big =>
    have reversed : bytes.reverse.length = w.size := by rw [List.length_reverse, size]
    change w.convert .big (littleNum bytes.reverse) = _
    rw [convert_reverse w reversed, List.reverse_reverse]

end MoonInWater.Bytes
