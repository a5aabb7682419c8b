import MoonInWater.Lib.CInt
import Mathlib.Data.List.Basic

/-! Bit maps of words: SET_BIT, and BIT_MAP_TRAVER over the first bits. -/
namespace MoonInWater.Common.BitMap
open CInt

def longBits : Nat := 64

def mapLen (n : Nat) : Nat := n / longBits + 1

/-- `1 << j` of ints; none where the value does not fit into an int, for which C has no result. -/
def shiftOne (j : Nat) : Option Int := if j < 31 then some (2 ^ j) else none

/-- SET_BIT -/
def setBit (map : List (BitVec 64)) (n : Nat) : Option (List (BitVec 64)) := do
  let bit ← shiftOne (n % longBits)
  let word ← map[n / longBits]?
  some (map.set (n / longBits) (word ||| BitVec.ofInt 64 bit))

/-- A call of IS_SET_ACTION or of IS_CLEAR_ACTION. -/
inductive Action where
  | isSet (position : Nat)
  | isClear (position : Nat)
deriving DecidableEq

/-- A turn of the inner loop. -/
def testBit (map : List (BitVec 64)) (i j : Nat) : Option Action := do
  let word ← map[i]?
  let bit ← shiftOne j
  some (if 0 < (word &&& BitVec.ofInt 64 bit).toInt then .isSet (i * longBits + j)
    else .isClear (i * longBits + j))

/-- The bits of word `i` that are tested; the int `_left` is compared with a size_t. -/
def leftOf (bitLen i : Nat) : Int :=
  let left := i32 ((bitLen : Int) - i * longBits)
  if (longBits : Int) < u64 left then longBits else left

/-- BIT_MAP_TRAVER -/
def bitMapTraver (map : List (BitVec 64)) (bitLen : Nat) : Option (List Action) := do
  let words ← (List.range (mapLen bitLen)).mapM fun i =>
    (List.range (leftOf bitLen i).toNat).mapM (testBit map i)
  some words.flatten

/-- What a traversal should do with the bits of which some have been set. -/
def report (positions : List Nat) (bitLen : Nat) : List Action :=
  (List.range bitLen).map fun n => if n ∈ positions then .isSet n else .isClear n

/-- The bits are set in a zeroed map, which is then traversed. -/
def setAndTraver (positions : List Nat) (bitLen : Nat) : Option (List Action) := do
  let map ← positions.foldlM setBit (List.replicate (mapLen bitLen) 0)
  bitMapTraver map bitLen

section
variable {bitLen n j : Nat} {positions : List Nat} {word : BitVec 64}

theorem ofInt_bit (j : Nat) : BitVec.ofInt 64 (2 ^ j) = BitVec.twoPow 64 j := by
  have cast : (2 : Int) ^ j = ((2 ^ j : Nat) : Int) := by simp
  apply BitVec.eq_of_toNat_eq
  rw [cast, BitVec.ofInt_natCast, BitVec.toNat_ofNat, BitVec.toNat_twoPow]

theorem setBit_small (small : n < 31) (word : BitVec 64) :
    setBit [word] n = some [word ||| BitVec.twoPow 64 n] := by
  have index : n / longBits = 0 := Nat.div_eq_of_lt (by unfold longBits; omega)
  have bit : n % longBits = n := Nat.mod_eq_of_lt (by unfold longBits; omega)
  simp [setBit, index, bit, shiftOne, small, ofInt_bit n]

/-- After all the positions have been set, the only word of a small map holds these. -/
theorem setBits_small (small : ∀ n ∈ positions, n < 31) (word : BitVec 64) :
    ∃ word', positions.foldlM setBit [word] = some [word'] ∧
      ∀ j < 31, (word'.getLsbD j = true ↔ word.getLsbD j = true ∨ j ∈ positions) := by
  induction positions generalizing word with
  | nil => exact ⟨word, rfl, by simp⟩
  | cons n positions ih =>
    have here := small n List.mem_cons_self
    obtain ⟨word', ran, holds⟩ := ih (fun k member => small k (List.mem_cons_of_mem _ member))
      (word ||| BitVec.twoPow 64 n)
    refine ⟨word', ?_, fun j less => ?_⟩
    · rw [List.foldlM_cons, setBit_small here]
      exact ran
    · rw [holds j less, BitVec.getLsbD_or, BitVec.getLsbD_twoPow, List.mem_cons]
      simp only [Bool.or_eq_true, Bool.and_eq_true, decide_eq_true_eq, eq_comm (a := n)]
      have room : n < 64 := by omega
      simp only [room, true_and, or_assoc]

theorem testBit_small (small : j < 31) (word : BitVec 64) :
    testBit [word] 0 j = some (if word.getLsbD j then .isSet j else .isClear j) := by
  have positive : 0 < (BitVec.twoPow 64 j).toInt := by
    have power : (2 : Nat) ^ j < 2 ^ 31 := Nat.pow_lt_pow_right (by decide) small
    rw [BitVec.toInt_eq_toNat_cond, BitVec.toNat_twoPow_of_lt (by omega)]
    have pos := Nat.two_pow_pos j
    omega
  have bits : (0 < (word &&& BitVec.twoPow 64 j).toInt) ↔ word.getLsbD j = true := by
    rw [BitVec.and_twoPow]
    cases word.getLsbD j
    · simp
    · simpa using positive
  have shift : shiftOne j = some (2 ^ j) := if_pos small
  have place : 0 * longBits + j = j := by rw [Nat.zero_mul, Nat.zero_add]
  simp only [testBit, List.getElem?_cons_zero, shift, Option.bind_eq_bind, Option.bind_some,
    ofInt_bit, bits, place]

theorem mapM_some {A B : Type} {f : A → Option B} {g : A → B} {l : List A}
    (each : ∀ x ∈ l, f x = some (g x)) : l.mapM f = some (l.map g) := by
  induction l with
  | nil => rfl
  | cons x l ih =>
    rw [List.mapM_cons, each x List.mem_cons_self,
      ih fun y member => each y (List.mem_cons_of_mem _ member)]
    rfl

theorem mapM_none {A B : Type} {f : A → Option B} {l : List A} {x : A} (member : x ∈ l)
    (fails : f x = none) : l.mapM f = none := by
  induction l with
  | nil => contradiction
  | cons y l ih =>
    rw [List.mapM_cons]
    rcases List.mem_cons.mp member with rfl | later
    · rw [fails]
      rfl
    · rw [ih later]
      cases f y <;> rfl

theorem leftOf_first (int : bitLen < 2 ^ 31) :
    leftOf bitLen 0 = if longBits < bitLen then (longBits : Int) else bitLen := by
  have value : i32 ((bitLen : Int) - (0 : Nat) * longBits) = bitLen := by
    rw [Int.natCast_zero, Int.zero_mul, Int.sub_zero]
    exact i32_eq (by omega) (by omega)
  rw [leftOf, value, u64_eq (by omega) (by omega)]
  simp only [Int.ofNat_lt]

theorem traver_small (small : bitLen ≤ 31) (word : BitVec 64) :
    bitMapTraver [word] bitLen =
      some ((List.range bitLen).map fun n => if word.getLsbD n then .isSet n else .isClear n) := by
  have words : mapLen bitLen = 1 := by
    unfold mapLen longBits
    omega
  have left : leftOf bitLen 0 = bitLen := by
    rw [leftOf_first (by omega), if_neg (by unfold longBits; omega)]
  have tests : (List.range bitLen).mapM (testBit [word] 0) =
      some ((List.range bitLen).map fun n => if word.getLsbD n then .isSet n else .isClear n) := by
    apply mapM_some
    intro n member
    exact testBit_small (by have := List.mem_range.mp member; omega) word
  simp [bitMapTraver, words, left, tests, List.range_one]

/-- A traversal of more bits than an int has reaches a shift without a result. -/
theorem traver_large (large : 31 < bitLen) (int : bitLen < 2 ^ 31) (map : List (BitVec 64)) :
    bitMapTraver map bitLen = none := by
  have left : 31 < (leftOf bitLen 0).toNat := by
    rw [leftOf_first int]
    split
    · unfold longBits
      decide
    · omega
  have test : testBit map 0 31 = none := by
    unfold testBit
    cases map[0]? <;> rfl
  have word : ((List.range (leftOf bitLen 0).toNat).mapM (testBit map 0)) = none :=
    mapM_none (List.mem_range.mpr left) test
  have first : 0 ∈ List.range (mapLen bitLen) := List.mem_range.mpr (Nat.succ_pos _)
  rw [bitMapTraver, mapM_none first word]
  rfl

/-- The traversal reports what has been set exactly for maps of at most 31 bits. -/
theorem report_iff (positive : 0 < bitLen) (int : bitLen < 2 ^ 31)
    (inside : ∀ n ∈ positions, n < bitLen) :
    setAndTraver positions bitLen = some (report positions bitLen) ↔ bitLen ≤ 31 := by
  constructor
  · intro same
    by_contra large
    unfold setAndTraver at same
    obtain ⟨map, _, traver⟩ := Option.bind_eq_some_iff.mp same
    rw [traver_large (Nat.lt_of_not_le large) int] at traver
    contradiction
  · intro small
    have words : mapLen bitLen = 1 := by
      unfold mapLen longBits
      omega
    have low : ∀ n ∈ positions, n < 31 := fun n member => Nat.lt_of_lt_of_le (inside n member) small
    obtain ⟨word, ran, holds⟩ := setBits_small low 0
    have start : List.replicate (mapLen bitLen) (0 : BitVec 64) = [0] := by rw [words]; rfl
    rw [setAndTraver, start, ran]
    change bitMapTraver [word] bitLen = _
    rw [traver_small small, report]
    congr 1
    apply List.map_congr_left
    intro n member
    have less := List.mem_range.mp member
    have bit : word.getLsbD n = true ↔ n ∈ positions := by
      rw [holds n (by omega)]
      simp
    simp only [bit]

theorem report_twenty : setAndTraver [19, 3] 20 = some (report [19, 3] 20) :=
  (report_iff (by decide) (by decide) (by decide)).mpr (by decide)

/-- A position in the upper half of a word. -/
theorem report_fails : setAndTraver [40] 64 ≠ some (report [40] 64) := by
  rw [setAndTraver]
  decide

end
end MoonInWater.Common.BitMap
