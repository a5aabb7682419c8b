import Mathlib.Algebra.Order.Ring.Int
import Mathlib.Tactic.Common

/-! The order in which the packets of a session are sent: by priority, and among equal priorities
by a sequence number that starts again after its end. -/
namespace MoonInWater.Session.PacketOrder

def priBitLen : Nat := 3
def seqBitLen : Nat := 64 - priBitLen

/-- A 64-bit value in an int. -/
def toInt32 (x : BitVec 64) : Int := (x.setWidth 32).toInt

def flag (p : Prop) [Decidable p] : Int := if p then 1 else 0

/-- The top two bits of both sequence numbers, those of the second above those of the first. -/
def topBits (u0 u1 : BitVec 64) : Int :=
  toInt32 (((u0 >>> (seqBitLen - 2)) &&& 0x3) ||| ((u1 >>> (seqBitLen - 4)) &&& 0xc))

/-- output_packet_pri_compare of the pri_seq of two packets. -/
def outputPacketPriCompare (u0 u1 : BitVec 64) : Int :=
  let cmp := toInt32 ((u0 >>> seqBitLen) - (u1 >>> seqBitLen))
  if cmp = 0 then
    let cmp := topBits u0 u1
    if u0 < u1 then -1 + 2 * flag (cmp = 2 ∨ cmp = 3)
    else if u1 < u0 then 1 - 2 * flag (cmp = 8 ∨ cmp = 12)
    else 0
  else cmp

/-- pri_seq of the packet that was issued as the `n`th one. -/
def priSeq (pri : BitVec 3) (n : Nat) : BitVec 64 := pri ++ BitVec.ofNat 61 n

/-- What the comparison of two packets should say. -/
structure Ordered (pri0 pri1 : BitVec 3) (n0 n1 : Nat) : Prop where
  byPriority : pri0 < pri1 → outputPacketPriCompare (priSeq pri0 n0) (priSeq pri1 n1) < 0
  byIssue : pri0 = pri1 → n0 < n1 + 2 ^ (seqBitLen - 2) → n1 < n0 + 2 ^ (seqBitLen - 2) →
    (outputPacketPriCompare (priSeq pri0 n0) (priSeq pri1 n1) < 0 ↔ n0 < n1) ∧
    (outputPacketPriCompare (priSeq pri0 n0) (priSeq pri1 n1) = 0 ↔ n0 = n1) ∧
    (0 < outputPacketPriCompare (priSeq pri0 n0) (priSeq pri1 n1) ↔ n1 < n0)
  opposite : (outputPacketPriCompare (priSeq pri0 n0) (priSeq pri1 n1)).sign =
    -(outputPacketPriCompare (priSeq pri1 n1) (priSeq pri0 n0)).sign

section
variable {u0 u1 : BitVec 64} {pri pri0 pri1 : BitVec 3} {n n0 n1 : Nat}

theorem toInt32_small {x : BitVec 64} (small : x.toNat < 2 ^ 31) : toInt32 x = x.toNat := by
  rw [toInt32, BitVec.toInt_eq_toNat_cond, BitVec.toNat_setWidth]
  omega

theorem toInt32_sub {x y : BitVec 64} (hx : x.toNat < 8) (hy : y.toNat < 8) :
    toInt32 (x - y) = (x.toNat : Int) - y.toNat := by
  rw [toInt32, BitVec.toInt_eq_toNat_cond, BitVec.toNat_setWidth, BitVec.toNat_sub]
  omega

theorem shift_toNat (u : BitVec 64) (k : Nat) : (u >>> k).toNat = u.toNat / 2 ^ k := by
  rw [BitVec.toNat_ushiftRight, Nat.shiftRight_eq_div_pow]

theorem and_three (x : Nat) : x &&& 3 = x % 4 := Nat.and_two_pow_sub_one_eq_mod x 2

theorem and_twelve (x : Nat) : x &&& 12 = x / 4 % 4 * 4 := by
  have small : ∀ r < 16, r &&& 12 = r / 4 * 4 := by decide
  have low : (x &&& 12) % 2 ^ 4 = x &&& 12 :=
    Nat.mod_eq_of_lt (Nat.lt_of_le_of_lt Nat.and_le_right (by decide))
  have reduced : x &&& 12 = (x % 16) &&& 12 := by
    rw [← low, Nat.and_mod_two_pow]
  rw [reduced, small _ (Nat.mod_lt _ (by decide))]
  omega

/-- The nibble of the top bits, as a number. -/
theorem topBits_eq (u0 u1 : BitVec 64) :
    topBits u0 u1 = ((u0.toNat / 2 ^ 59 % 4 + u1.toNat / 2 ^ 59 % 4 * 4 : Nat) : Int) := by
  have apart : ∀ a < 4, ∀ b < 4, a ||| b * 4 = a + b * 4 := by decide
  have nibble : (((u0 >>> (seqBitLen - 2)) &&& 0x3) |||
      ((u1 >>> (seqBitLen - 4)) &&& 0xc)).toNat =
        u0.toNat / 2 ^ 59 % 4 + u1.toNat / 2 ^ 59 % 4 * 4 := by
    have first : (3 : BitVec 64).toNat = 3 := rfl
    have second : (12 : BitVec 64).toNat = 12 := rfl
    have len : seqBitLen = 61 := rfl
    rw [BitVec.toNat_or, BitVec.toNat_and, BitVec.toNat_and, first, second, and_three, and_twelve,
      shift_toNat, shift_toNat, len, apart _ (Nat.mod_lt _ (by decide)) _
        (Nat.mod_lt _ (by decide))]
    omega
  rw [topBits, toInt32_small, nibble]
  omega

/-- The constants of both branches stand for numbers in the other order, so they never match. -/
theorem compare_eq (u0 u1 : BitVec 64) :
    outputPacketPriCompare u0 u1 =
      if u0.toNat / 2 ^ 61 = u1.toNat / 2 ^ 61 then
        if u0.toNat < u1.toNat then -1 else if u1.toNat < u0.toNat then 1 else 0
      else (u0.toNat / 2 ^ 61 : Nat) - ((u1.toNat / 2 ^ 61 : Nat) : Int) := by
  have bound0 := u0.isLt
  have bound1 := u1.isLt
  have priorities : toInt32 ((u0 >>> seqBitLen) - (u1 >>> seqBitLen)) =
      ((u0.toNat / 2 ^ 61 : Nat) : Int) - (u1.toNat / 2 ^ 61 : Nat) := by
    have len : seqBitLen = 61 := rfl
    rw [len, toInt32_sub (by rw [shift_toNat]; omega) (by rw [shift_toNat]; omega), shift_toNat,
      shift_toNat]
  simp only [outputPacketPriCompare, priorities, topBits_eq, BitVec.lt_def, flag]
  by_cases same : u0.toNat / 2 ^ 61 = u1.toNat / 2 ^ 61
  · rw [if_pos same, if_pos (by omega)]
    by_cases less : u0.toNat < u1.toNat
    · rw [if_pos less, if_pos less, if_neg (by omega)]
      rfl
    · rw [if_neg less, if_neg less]
      by_cases greater : u1.toNat < u0.toNat
      · rw [if_pos greater, if_pos greater, if_neg (by omega)]
        rfl
      · rw [if_neg greater, if_neg greater]
  · rw [if_neg same, if_neg (by omega)]

theorem priSeq_toNat (pri : BitVec 3) (n : Nat) :
    (priSeq pri n).toNat = pri.toNat * 2 ^ 61 + n % 2 ^ 61 := by
  have low : n % 2 ^ 61 < 2 ^ 61 := Nat.mod_lt _ (by decide)
  rw [priSeq, BitVec.toNat_append, BitVec.toNat_ofNat, ← Nat.shiftLeft_add_eq_or_of_lt low,
    Nat.shiftLeft_eq]

theorem compare_priSeq (pri0 pri1 : BitVec 3) (n0 n1 : Nat) :
    outputPacketPriCompare (priSeq pri0 n0) (priSeq pri1 n1) =
      if pri0.toNat = pri1.toNat then
        if n0 % 2 ^ 61 < n1 % 2 ^ 61 then -1 else if n1 % 2 ^ 61 < n0 % 2 ^ 61 then 1 else 0
      else (pri0.toNat : Int) - pri1.toNat := by
  have top (pri : BitVec 3) (n : Nat) : (priSeq pri n).toNat / 2 ^ 61 = pri.toNat := by
    rw [priSeq_toNat]
    omega
  rw [compare_eq, top, top]
  by_cases same : pri0.toNat = pri1.toNat
  · simp only [priSeq_toNat, same, Nat.add_lt_add_iff_left]
  · rw [if_neg same, if_neg same]

/-- The two packets are close to each other, and the sequence number has started again between
them. -/
def Wraps (pri0 pri1 : BitVec 3) (n0 n1 : Nat) : Prop :=
  pri0 = pri1 ∧ n0 < n1 + 2 ^ (seqBitLen - 2) ∧ n1 < n0 + 2 ^ (seqBitLen - 2) ∧
    n0 / 2 ^ seqBitLen ≠ n1 / 2 ^ seqBitLen

theorem compare_opposite (pri0 pri1 : BitVec 3) (n0 n1 : Nat) :
    (outputPacketPriCompare (priSeq pri0 n0) (priSeq pri1 n1)).sign =
      -(outputPacketPriCompare (priSeq pri1 n1) (priSeq pri0 n0)).sign := by
  rw [compare_priSeq, compare_priSeq]
  by_cases same : pri0.toNat = pri1.toNat
  · rw [if_pos same, if_pos same.symm]
    rcases Nat.lt_trichotomy (n0 % 2 ^ 61) (n1 % 2 ^ 61) with less | equal | greater
    · rw [if_pos less, if_neg (by omega), if_pos less]
      rfl
    · rw [equal, if_neg (Nat.lt_irrefl _), if_neg (Nat.lt_irrefl _)]
      rfl
    · rw [if_neg (by omega), if_pos greater, if_pos greater]
      rfl
  · rw [if_neg same, if_neg (Ne.symm same), ← Int.neg_sub, Int.sign_neg]

theorem compare_priority (less : pri0 < pri1) :
    outputPacketPriCompare (priSeq pri0 n0) (priSeq pri1 n1) < 0 := by
  have less' : pri0.toNat < pri1.toNat := less
  rw [compare_priSeq, if_neg (by omega)]
  omega

/-- While the counter does not pass its end, equal priorities are sent in the order of issue. -/
theorem compare_issue (same : n0 / 2 ^ 61 = n1 / 2 ^ 61) :
    (outputPacketPriCompare (priSeq pri n0) (priSeq pri n1) < 0 ↔ n0 < n1) ∧
    (outputPacketPriCompare (priSeq pri n0) (priSeq pri n1) = 0 ↔ n0 = n1) ∧
    (0 < outputPacketPriCompare (priSeq pri n0) (priSeq pri n1) ↔ n1 < n0) := by
  rw [compare_priSeq, if_pos rfl]
  rcases Nat.lt_trichotomy n0 n1 with less | rfl | greater
  · rw [if_pos (by omega)]
    omega
  · rw [if_neg (Nat.lt_irrefl _), if_neg (Nat.lt_irrefl _)]
    omega
  · rw [if_neg (by omega), if_pos (by omega)]
    omega

/-- Of two packets on both sides of the end, the one that was issued later goes first. -/
theorem compare_wrapped (behind : n0 / 2 ^ 61 < n1 / 2 ^ 61) (close : n1 < n0 + 2 ^ 59) :
    0 < outputPacketPriCompare (priSeq pri n0) (priSeq pri n1) := by
  rw [compare_priSeq, if_pos rfl, if_neg (by omega), if_pos (by omega)]
  exact Int.one_pos

/-- The packets are in order unless the sequence number starts again between them. -/
theorem ordered_iff (pri0 pri1 : BitVec 3) (n0 n1 : Nat) :
    Ordered pri0 pri1 n0 n1 ↔ ¬ Wraps pri0 pri1 n0 n1 := by
  have len : seqBitLen = 61 := rfl
  constructor
  · rintro ordered ⟨rfl, close0, close1, wrapped⟩
    obtain ⟨before, _, after⟩ := ordered.byIssue rfl close0 close1
    rw [len] at close0 close1 wrapped
    rcases Nat.lt_or_gt_of_ne wrapped with less | greater
    · have later := after.mp (compare_wrapped less close1)
      have order := Nat.div_le_div_right (c := 2 ^ 61) (Nat.le_of_lt later)
      omega
    · have opposite := compare_opposite pri0 pri0 n0 n1
      have positive : 0 < outputPacketPriCompare (priSeq pri0 n1) (priSeq pri0 n0) :=
        compare_wrapped greater close0
      rw [Int.sign_eq_one_of_pos positive] at opposite
      have earlier := before.mp (Int.sign_eq_neg_one_iff_neg.mp opposite)
      have order := Nat.div_le_div_right (c := 2 ^ 61) (Nat.le_of_lt earlier)
      omega
  · intro straight
    refine ⟨compare_priority, ?_, compare_opposite pri0 pri1 n0 n1⟩
    rintro rfl close0 close1
    apply compare_issue
    by_contra wrapped
    exact straight ⟨rfl, close0, close1, wrapped⟩

/-- The last sequence number before the end, and the first one after it. -/
theorem ordered_fails : ¬ Ordered 0 0 (2 ^ 61 - 1) (2 ^ 61) := by
  intro ordered
  have before := (ordered.byIssue rfl (by decide) (by decide)).1.mpr (by decide)
  revert before
  decide

end
end MoonInWater.Session.PacketOrder
