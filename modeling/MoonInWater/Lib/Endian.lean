import Mathlib.Tactic.Common
import Mathlib.Algebra.Order.Ring.Int

/-! Words in memory under the byte order of a host, and the conversion between the order of the
host and the little-endian order of the wire. -/
namespace MoonInWater.Endian

inductive ByteOrder where
  | little
  | big
deriving DecidableEq

/-- Four bytes of memory, by their addresses. -/
structure Word where
  b0 : Nat
  b1 : Nat
  b2 : Nat
  b3 : Nat
deriving DecidableEq

/-- The number of the bytes from the most significant one on. -/
def ofBytes (d c b a : Nat) : Nat := ((d * 256 + c) * 256 + b) * 256 + a

def store32 (order : ByteOrder) (x : Nat) : Word :=
  match order with
  | .little => ⟨x % 256, x / 256 % 256, x / 65536 % 256, x / 16777216 % 256⟩
  | .big => ⟨x / 16777216 % 256, x / 65536 % 256, x / 256 % 256, x % 256⟩

def load32 (order : ByteOrder) (w : Word) : Nat :=
  match order with
  | .little => ofBytes w.b3 w.b2 w.b1 w.b0
  | .big => ofBytes w.b0 w.b1 w.b2 w.b3

/-- The two halves of a number below `half * half`, exchanged. -/
def swapHalves (half x : Nat) : Nat := x / half + x % half * half

/-- Between the order of the host and the little-endian one: the halves of both 16-bit halves,
and then these, are exchanged on a big-endian host. -/
def convert32 (order : ByteOrder) (x : Nat) : Nat :=
  match order with
  | .little => x
  | .big => swapHalves 65536 (swapHalves 256 (x / 65536) * 65536 + swapHalves 256 (x % 65536))

theorem swapHalves_eq (half hi lo : Nat) (small : lo < half) :
    swapHalves half (hi * half + lo) = lo * half + hi := by
  have positive : 0 < half := Nat.lt_of_le_of_lt (Nat.zero_le _) small
  rw [swapHalves, Nat.mul_comm hi, Nat.mul_add_div positive, Nat.mul_add_mod,
    Nat.div_eq_of_lt small, Nat.mod_eq_of_lt small]
  omega

section
variable {a b c d : Nat}

theorem convert32_big (ha : a < 256) (hb : b < 256) (hc : c < 256) :
    convert32 .big (ofBytes d c b a) = ofBytes a b c d := by
  have high : ofBytes d c b a / 65536 = d * 256 + c := by
    rw [ofBytes]
    omega
  have low : ofBytes d c b a % 65536 = b * 256 + a := by
    rw [ofBytes]
    omega
  rw [convert32, high, low, swapHalves_eq 256 d c hc, swapHalves_eq 256 b a ha,
    swapHalves_eq 65536 _ _ (by omega), ofBytes]
  omega

theorem store32_bytes (ha : a < 256) (hb : b < 256) (hc : c < 256) (hd : d < 256) :
    store32 .little (ofBytes d c b a) = ⟨a, b, c, d⟩ ∧
      store32 .big (ofBytes d c b a) = ⟨d, c, b, a⟩ := by
  have first : ofBytes d c b a % 256 = a := by
    rw [ofBytes]
    omega
  have second : ofBytes d c b a / 256 % 256 = b := by
    rw [ofBytes]
    omega
  have third : ofBytes d c b a / 65536 % 256 = c := by
    rw [ofBytes]
    omega
  have fourth : ofBytes d c b a / 16777216 % 256 = d := by
    rw [ofBytes]
    omega
  rw [store32, store32, first, second, third, fourth]
  exact ⟨rfl, rfl⟩

end

theorem exists_bytes {x : Nat} (small : x < 2 ^ 32) :
    ∃ a b c d, a < 256 ∧ b < 256 ∧ c < 256 ∧ d < 256 ∧ x = ofBytes d c b a := by
  refine ⟨x % 256, x / 256 % 256, x / 65536 % 256, x / 16777216, ?_, ?_, ?_, ?_, ?_⟩
  · omega
  · omega
  · omega
  · omega
  · rw [ofBytes]
    omega

/-- A number goes over the wire between hosts of any byte orders. -/
theorem wire32 (source dest : ByteOrder) {x : Nat} (small : x < 2 ^ 32) :
    convert32 dest (load32 dest (store32 source (convert32 source x))) = x := by
  obtain ⟨a, b, c, d, ha, hb, hc, hd, rfl⟩ := exists_bytes small
  have wire : store32 source (convert32 source (ofBytes d c b a)) = ⟨a, b, c, d⟩ := by
    cases source with
    | little => exact (store32_bytes ha hb hc hd).1
    | big =>
      rw [convert32_big ha hb hc]
      exact (store32_bytes hd hc hb ha).2
  rw [wire]
  cases dest with
  | little => rfl
  | big => exact convert32_big hd hc hb

end MoonInWater.Endian
