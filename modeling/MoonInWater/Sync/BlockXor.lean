import MoonInWater.Lib.CInt
import MoonInWater.Lib.Xor

/-! block_xor: bytes up to an aligned address, then words, then the bytes that are left. -/
namespace MoonInWater.Sync.BlockXor
open CInt Endian Bytes

/-- The pointers and the length of block_xor, which its macro moves on. -/
structure Cursor where
  mem : Memory
  dst : Nat
  src : Nat
  len : Int

section
variable (order : ByteOrder) (sizeofLong : Nat)

/-- The loop of _BLOCK_XOR_TYPE over elements of `size` bytes. -/
def xorTurns (size : Nat) : Nat → Cursor → Cursor
  | 0, c => c
  | n + 1, c =>
    xorTurns size n { c with
      mem := write c.mem c.dst (store order size
        (load order (read c.mem c.dst size) ^^^ load order (read c.mem c.src size)))
      dst := c.dst + size
      src := c.src + size }

/-- _BLOCK_XOR_TYPE -/
def blockXorType (size : Nat) (len1 : Int) (c : Cursor) : Cursor :=
  let c := xorTurns order size len1.toNat c
  { c with len := i32 (c.len - len1 * size) }

/-- The while loop; the int `len` is compared with a size_t. -/
def xorLoop : Nat → Cursor → Option Cursor
  | 0, _ => none
  | fuel + 1, c =>
    if (sizeofLong : Int) ≤ u64 c.len then
      let c := blockXorType order 1 (u64 (-c.dst) % sizeofLong) c
      let c := blockXorType order sizeofLong (i32 (u64 c.len / sizeofLong)) c
      xorLoop fuel c
    else some c

def blockXor (fuel : Nat) (mem : Memory) (dst src : Nat) (len : Int) : Option Memory :=
  (xorLoop order sizeofLong fuel ⟨mem, dst, src, len⟩).map fun c =>
    (blockXorType order 1 c.len c).mem

end

section
variable {order : ByteOrder} {sizeofLong size n m k len fuel : Nat} {c : Cursor} {mem : Memory}
variable {dst src : Nat}

/-- `n` bytes behind `mem` have been done, and `m` are left. -/
structure Done (mem : Memory) (dst src n m : Nat) (c : Cursor) : Prop where
  mem : c.mem = xored mem dst src n
  dst : c.dst = dst + n
  src : c.src = src + n
  len : c.len = m

theorem xorTurns_xored (order : ByteOrder) (size k : Nat) (c : Cursor)
    (apart : Apart c.dst c.src (size * k)) :
    xorTurns order size k c =
      ⟨xored c.mem c.dst c.src (size * k), c.dst + size * k, c.src + size * k, c.len⟩ := by
  induction k generalizing c with
  | zero => simp [xorTurns]
  | succ k ih =>
    have total : size * (k + 1) = size + size * k := by rw [Nat.mul_succ, Nat.add_comm]
    rw [total] at apart
    have next : Apart (c.dst + size) (c.src + size) (size * k) := by
      unfold Apart at apart ⊢
      omega
    rw [xorTurns, ih _ next, write_xor, xored_add apart, total, Nat.add_assoc, Nat.add_assoc]

/-- One use of the macro does as many bytes as its length is reduced by. -/
theorem Done.type (order : ByteOrder) (size k : Nat) (done : Done mem dst src n m c)
    (apart : Apart dst src (n + m)) (small : m < 2 ^ 31) (inside : size * k ≤ m) :
    Done mem dst src (n + size * k) (m - size * k) (blockXorType order size k c) := by
  have region : Apart c.dst c.src (size * k) := by
    rw [done.dst, done.src]
    unfold Apart at apart ⊢
    omega
  have whole : Apart dst src (n + size * k) := by
    unfold Apart at apart ⊢
    omega
  have turns := xorTurns_xored order size k c region
  have left : i32 ((m : Int) - (k : Int) * size) = ((m - size * k : Nat) : Int) := by
    have product : (k : Int) * size = ((size * k : Nat) : Int) := by
      rw [Int.natCast_mul, Int.mul_comm]
    rw [product, i32_eq (by omega) (by omega)]
    omega
  simp only [blockXorType, Int.toNat_natCast, turns, done.mem, done.dst, done.src, done.len]
  exact ⟨xored_add whole, Nat.add_assoc .., Nat.add_assoc .., left⟩

/-- The loop leaves less than a word, and does the rest. -/
theorem xorLoop_done (order : ByteOrder) (positive : 0 < sizeofLong) (done : Done mem dst src n m c)
    (apart : Apart dst src (n + m)) (small : m < 2 ^ 31) (enough : 2 ≤ fuel) :
    ∃ c' k, xorLoop order sizeofLong fuel c = some c' ∧ k ≤ m ∧
      Done mem dst src (n + k) (m - k) c' := by
  obtain ⟨fuel, rfl⟩ : ∃ f, fuel = f + 2 := ⟨fuel - 2, by omega⟩
  have length : u64 c.len = m := by
    rw [done.len]
    exact u64_eq (by omega) (by omega)
  by_cases words : sizeofLong ≤ m
  · -- the bytes up to the alignment, fewer than a word
    have rest : ∃ j : Nat, u64 (-c.dst) % sizeofLong = j ∧ j < sizeofLong := by
      have low := Int.emod_nonneg (u64 (-c.dst)) (b := sizeofLong) (by omega)
      have high := Int.emod_lt_of_pos (u64 (-c.dst)) (b := sizeofLong) (by omega)
      exact ⟨(u64 (-c.dst) % sizeofLong).toNat, by omega, by omega⟩
    obtain ⟨j, bytes, less⟩ := rest
    have first := done.type order 1 j apart small (by omega)
    rw [Nat.one_mul] at first
    generalize stepped : blockXorType order 1 j c = c₁ at first
    have length₁ : u64 c₁.len = (m - j : Nat) := by
      rw [first.len]
      exact u64_eq (by omega) (by omega)
    -- the whole words of what is left
    obtain ⟨q, r, words, whole, tail⟩ : ∃ q r, (m - j) / sizeofLong = q ∧
        sizeofLong * q + r = m - j ∧ r < sizeofLong :=
      ⟨_, _, rfl, Nat.div_add_mod _ _, Nat.mod_lt _ positive⟩
    have fits : q ≤ m - j := words ▸ Nat.div_le_self _ _
    have count : i32 ((m - j : Nat) / (sizeofLong : Int)) = q := by
      rw [← Int.natCast_ediv, words]
      exact i32_eq (by omega) (by omega)
    have apart₁ : Apart dst src (n + j + (m - j)) := by
      rwa [Nat.add_assoc, Nat.add_sub_of_le (by omega)]
    have second := first.type order sizeofLong q apart₁ (by omega) (by omega)
    generalize stepped₁ : blockXorType order sizeofLong q c₁ = c₂ at second
    have left : m - j - sizeofLong * q = r := by omega
    rw [left] at second
    refine ⟨c₂, j + sizeofLong * q, ?_, by omega, ?_⟩
    · have length₂ : u64 c₂.len = r := by
        rw [second.len]
        exact u64_eq (by omega) (by omega)
      rw [xorLoop, length, if_pos (by omega)]
      simp only [bytes, stepped, length₁, count, stepped₁]
      rw [xorLoop, length₂, if_neg (by omega)]
    · have rest : m - (j + sizeofLong * q) = r := by omega
      rw [← Nat.add_assoc, rest]
      exact second
  · refine ⟨c, 0, ?_, Nat.zero_le m, done⟩
    rw [xorLoop, length, if_neg (by omega)]

theorem blockXor_xored (positive : 0 < sizeofLong) (small : len < 2 ^ 31)
    (apart : Apart dst src len) (enough : 2 ≤ fuel) :
    blockXor order sizeofLong fuel mem dst src len = some (xored mem dst src len) := by
  have start : Done mem dst src 0 len ⟨mem, dst, src, len⟩ := ⟨by simp, rfl, rfl, rfl⟩
  rw [← Nat.zero_add len] at apart
  obtain ⟨c, k, ran, fits, done⟩ := xorLoop_done order positive start apart small enough
  have rest : Apart dst src (0 + k + (len - k)) := by
    rwa [Nat.add_assoc, Nat.add_sub_of_le fits]
  have last := done.type order 1 (len - k) rest (by omega) (by omega)
  have all : 0 + k + 1 * (len - k) = len := by omega
  rw [all] at last
  rw [blockXor, ran, Option.map_some, done.len, last.mem]

end

/-- What block_xor does to a region of memory and nothing else, on any host. -/
structure Xors (order : ByteOrder) (sizeofLong : Nat) (mem : Memory) (dst src len : Nat)
    (mem' : Memory) : Prop where
  ends : ∀ fuel, 2 ≤ fuel → blockXor order sizeofLong fuel mem dst src len = some mem'
  inside : ∀ i < len, mem' (dst + i) = mem (dst + i) ^^^ mem (src + i)
  outside : ∀ a, a < dst ∨ dst + len ≤ a → mem' a = mem a
  /-- A second time it restores the region. -/
  twice : ∀ fuel, 2 ≤ fuel → blockXor order sizeofLong fuel mem' dst src len = some mem
  /-- With the same old block, it restores the region in the memory of another host. -/
  undone : ∀ order' sizeofLong' other dst' src' fuel, 0 < sizeofLong' → Apart dst' src' len →
    read other dst' len = read mem' dst len → read other src' len = read mem src len →
      2 ≤ fuel → ∃ other', blockXor order' sizeofLong' fuel other dst' src' len = some other' ∧
        read other' dst' len = read mem dst len

/-- block_xor of two buffers that do not overlap, at any addresses. -/
theorem blockXor_bytes (order : ByteOrder) {sizeofLong : Nat} (positive : 0 < sizeofLong)
    (mem : Memory) {dst src len : Nat} (small : len < 2 ^ 31) (apart : Apart dst src len) :
    ∃ mem', Xors order sizeofLong mem dst src len mem' := by
  refine ⟨xored mem dst src len, ?_, ?_, ?_, ?_, ?_⟩
  · intro fuel enough
    exact blockXor_xored positive small apart enough
  · intro i less
    exact xored_at less
  · intro a apart'
    exact if_neg (by omega)
  · intro fuel enough
    rw [blockXor_xored positive small apart enough, xored_twice apart]
  · intro order' sizeofLong' other dst' src' fuel positive' apart' packet old enough
    refine ⟨_, blockXor_xored positive' small apart' enough, ?_⟩
    rw [read_eq_iff] at packet old ⊢
    intro i less
    rw [xored_at less, packet i less, old i less, xored_at less, UInt8.xor_assoc, UInt8.xor_self,
      UInt8.xor_zero]

theorem blockXor_bytes_eleven :
    ∃ mem', Xors .little 8 (fun a => UInt8.ofNat a) 13 40 11 mem' :=
  blockXor_bytes .little (by decide) _ (by decide) (.inl (by decide))

end MoonInWater.Sync.BlockXor
