import MoonInWater.Lib.Bytes

/-! Numbers of 2, 4 or 8 bytes: two fields of 15 bits and one of 32, little-endian, where the
top bit of each of the first two says that another field follows. -/
namespace MoonInWater.Sync.MoonNum
open Endian Bytes

/-- The memory, the pointer `*pp_dst` into it and `*p_len`. -/
structure Cursor where
  mem : Memory
  pc : Nat
  len : Int

/-- _CONVERT_ELEM, with the new `prev_bit_len` and `_big`. -/
def convertElem (order : ByteOrder) (curType : Width) (num prevBitLen : Nat) (c : Cursor) :
    Cursor × Nat × Bool :=
  let curTypeLen := curType.size * 8 - 1
  let p := num / 2 ^ prevBitLen % 2 ^ curTypeLen
  let big := decide (2 ^ (curTypeLen + prevBitLen) ≤ num)
  let p := if big then p + 2 ^ curTypeLen else p
  let prevBitLen := if big then prevBitLen + curTypeLen else prevBitLen
  let bytes := store order curType.size (curType.convert order p)
  (⟨write c.mem c.pc bytes, c.pc + curType.size, c.len + curType.size⟩, prevBitLen, big)

def convertToMoonNum (order : ByteOrder) (num : Nat) (c : Cursor) : Cursor × Int :=
  if 2 ^ 62 ≤ num then (c, -1) else
  match convertElem order .uint16 num 0 c with
  | (c, _, false) => (c, 0)
  | (c, bits, true) =>
    match convertElem order .uint16 num bits c with
    | (c, _, false) => (c, 0)
    | (c, bits, true) => ((convertElem order .uint32 num bits c).1, 0)

/-- _GET_ELEM on the `*p_len` bytes behind `*ppc`: `_ret`, `*p_num`, `prev_bit_len` and the
bytes that are left. -/
def getElem (order : ByteOrder) (curType : Width) (num prevBitLen : Nat) (bytes : List UInt8) :
    Int × Nat × Nat × List UInt8 :=
  let curTypeLen := curType.size * 8 - 1
  if curType.size ≤ bytes.length then
    let tmp := curType.convert order (load order (bytes.take curType.size))
    let num := num + tmp % 2 ^ curTypeLen * 2 ^ prevBitLen
    let bytes := bytes.drop curType.size
    if 2 ^ curTypeLen ≤ tmp then (1, num, prevBitLen + curTypeLen, bytes)
    else (0, num, prevBitLen, bytes)
  else (-1, num, prevBitLen, bytes)

/-- get_from_moon_num, with `*p_num` and the bytes that are left. -/
def getFromMoonNum (order : ByteOrder) (bytes : List UInt8) : Int × Nat × List UInt8 :=
  let (ret, num, bits, bytes) := getElem order .uint16 0 0 bytes
  if ret ≤ 0 then (ret, num, bytes) else
  let (ret, num, bits, bytes) := getElem order .uint16 num bits bytes
  if ret ≤ 0 then (ret, num, bytes) else
  let (ret, num, bits, bytes) := getElem order .uint32 num bits bytes
  if ret < 0 then (ret, num, bytes)
  else if 0 < ret then (0, num + 2 ^ bits, bytes)
  else (0, num, bytes)

/-- The bytes of a number. -/
def moonBytes (n : Nat) : List UInt8 :=
  if n < 2 ^ 15 then little 2 n
  else if n < 2 ^ 30 then little 2 (n % 2 ^ 15 + 2 ^ 15) ++ little 2 (n / 2 ^ 15)
  else little 2 (n % 2 ^ 15 + 2 ^ 15) ++ little 2 (n / 2 ^ 15 % 2 ^ 15 + 2 ^ 15) ++
    little 4 (n / 2 ^ 30)

theorem moonBytes_length (n : Nat) :
    (moonBytes n).length = if n < 2 ^ 15 then 2 else if n < 2 ^ 30 then 4 else 8 := by
  unfold moonBytes
  split_ifs <;> simp

theorem moonBytes_bounds (n : Nat) : 2 ≤ (moonBytes n).length ∧ (moonBytes n).length ≤ 8 := by
  rw [moonBytes_length]
  split_ifs <;> omega

def Cursor.put (c : Cursor) (bytes : List UInt8) : Cursor :=
  ⟨write c.mem c.pc bytes, c.pc + bytes.length, c.len + bytes.length⟩

theorem Cursor.put_nil (c : Cursor) : c.put [] = c := by
  simp only [Cursor.put, write, List.length_nil, Nat.add_zero, Nat.cast_zero, Int.add_zero]

theorem Cursor.put_append (c : Cursor) (bytes bytes' : List UInt8) :
    c.put (bytes ++ bytes') = (c.put bytes).put bytes' := by
  unfold Cursor.put
  simp only [write_append, List.length_append, Nat.cast_add, Nat.add_assoc, Int.add_assoc]

theorem Cursor.read_put (c : Cursor) (bytes : List UInt8) :
    read (c.put bytes).mem c.pc bytes.length = bytes := read_write

section encode
variable {order : ByteOrder} {n bits : Nat} {c : Cursor}

theorem convertElem_last (w : Width) (last : n < 2 ^ (w.size * 8 - 1 + bits)) :
    convertElem order w n bits c = (c.put (little w.size (n / 2 ^ bits)), bits, false) := by
  have high : ¬ 2 ^ (w.size * 8 - 1 + bits) ≤ n := Nat.not_le.mpr last
  have rest : n / 2 ^ bits < 2 ^ (w.size * 8 - 1) := by
    rw [Nat.div_lt_iff_lt_mul (by exact Nat.two_pow_pos _), ← pow_add]
    exact last
  have value : n / 2 ^ bits < 256 ^ w.size := by
    refine rest.trans_le ?_
    cases w <;> decide
  simp only [convertElem, high, decide_false, Bool.false_eq_true, if_false, Nat.mod_eq_of_lt rest,
    store_convert order w value, Cursor.put, little_length]

theorem convertElem_more (w : Width) (more : 2 ^ (w.size * 8 - 1 + bits) ≤ n) :
    convertElem order w n bits c =
      (c.put (little w.size (n / 2 ^ bits % 2 ^ (w.size * 8 - 1) + 2 ^ (w.size * 8 - 1))),
        bits + (w.size * 8 - 1), true) := by
  have rest : n / 2 ^ bits % 2 ^ (w.size * 8 - 1) < 2 ^ (w.size * 8 - 1) :=
    Nat.mod_lt _ (by exact Nat.two_pow_pos _)
  have value : n / 2 ^ bits % 2 ^ (w.size * 8 - 1) + 2 ^ (w.size * 8 - 1) < 256 ^ w.size := by
    refine (Nat.add_lt_add_right rest _).trans_le ?_
    cases w <;> decide
  simp only [convertElem, more, decide_true, if_true, store_convert order w value, Cursor.put,
    little_length]

/-- The last field has all its 32 bits for the number. -/
theorem convertElem_third (small : n < 2 ^ 62) :
    (convertElem order .uint32 n 30 c).1 = c.put (little 4 (n / 2 ^ 30)) := by
  by_cases last : n < 2 ^ 61
  · exact congrArg Prod.fst (convertElem_last .uint32 last)
  · have whole : n / 2 ^ 30 % 2 ^ 31 + 2 ^ 31 = n / 2 ^ 30 := by omega
    have more : 2 ^ (Width.uint32.size * 8 - 1 + 30) ≤ n := Nat.not_lt.mp last
    rw [convertElem_more .uint32 more]
    exact congrArg (fun x => c.put (little 4 x)) whole

theorem convertToMoonNum_spec (small : n < 2 ^ 62) :
    convertToMoonNum order n c = (c.put (moonBytes n), 0) := by
  rw [convertToMoonNum, if_neg (Nat.not_le.mpr small), moonBytes]
  by_cases one : n < 2 ^ 15
  · rw [if_pos one, convertElem_last .uint16 one, pow_zero, Nat.div_one]
    rfl
  · rw [if_neg one, convertElem_more .uint16 (Nat.not_lt.mp one), pow_zero, Nat.div_one]
    by_cases two : n < 2 ^ 30
    · rw [if_pos two]
      simp only []
      rw [convertElem_last .uint16 two, Cursor.put_append]
      rfl
    · rw [if_neg two]
      simp only []
      rw [convertElem_more .uint16 (Nat.not_lt.mp two), Cursor.put_append, Cursor.put_append]
      simp only []
      exact congrArg (·, (0 : Int)) (convertElem_third small)

theorem convertToMoonNum_large (large : 2 ^ 62 ≤ n) : convertToMoonNum order n c = (c, -1) :=
  if_pos large

end encode

/-- Some bytes end inside the number that they begin with. -/
def EndsInside (bytes : List UInt8) : Prop :=
  bytes.length < 2 ∨ 2 ^ 15 ≤ littleNum (bytes.take 2) ∧
    (bytes.length < 4 ∨ 2 ^ 15 ≤ littleNum ((bytes.drop 2).take 2) ∧ bytes.length < 8)

section decode
variable {order : ByteOrder} {n num bits : Nat} {bytes : List UInt8}

theorem getElem_short (w : Width) (short : bytes.length < w.size) :
    getElem order w num bits bytes = (-1, num, bits, bytes) :=
  if_neg (Nat.not_le.mpr short)

theorem getElem_long (w : Width) (long : w.size ≤ bytes.length)
    (value : littleNum (bytes.take w.size) = n) :
    getElem order w num bits bytes =
      if 2 ^ (w.size * 8 - 1) ≤ n
        then (1, num + n % 2 ^ (w.size * 8 - 1) * 2 ^ bits, bits + (w.size * 8 - 1),
          bytes.drop w.size)
        else (0, num + n * 2 ^ bits, bits, bytes.drop w.size) := by
  have size : (bytes.take w.size).length = w.size := List.length_take_of_le long
  rw [getElem, if_pos long, convert_load order w size, value]
  by_cases more : 2 ^ (w.size * 8 - 1) ≤ n
  · rw [if_pos more, if_pos more]
  · rw [if_neg more, if_neg more, Nat.mod_eq_of_lt (Nat.not_le.mp more)]

theorem getElem_little (w : Width) (rest : List UInt8) (small : n < 256 ^ w.size) :
    getElem order w num bits (little w.size n ++ rest) =
      if 2 ^ (w.size * 8 - 1) ≤ n
        then (1, num + n % 2 ^ (w.size * 8 - 1) * 2 ^ bits, bits + (w.size * 8 - 1), rest)
        else (0, num + n * 2 ^ bits, bits, rest) := by
  have front : (little w.size n ++ rest).take w.size = little w.size n :=
    List.take_left' (little_length ..)
  have behind : (little w.size n ++ rest).drop w.size = rest := List.drop_left' (little_length ..)
  have long : w.size ≤ (little w.size n ++ rest).length := by simp
  rw [getElem_long w long (front ▸ littleNum_little small), behind]

/-- A field without its top bit is the last one. -/
theorem getElem_last (w : Width) (rest : List UInt8) (last : n < 2 ^ (w.size * 8 - 1)) :
    getElem order w num bits (little w.size n ++ rest) = (0, num + n * 2 ^ bits, bits, rest) := by
  have small : n < 256 ^ w.size := by
    refine last.trans_le ?_
    cases w <;> decide
  rw [getElem_little w rest small, if_neg (Nat.not_le.mpr last)]

/-- The top bit of a field counts for nothing but itself. -/
theorem getElem_more (w : Width) (rest : List UInt8) (low : n < 2 ^ (w.size * 8 - 1)) :
    getElem order w num bits (little w.size (n + 2 ^ (w.size * 8 - 1)) ++ rest) =
      (1, num + n * 2 ^ bits, bits + (w.size * 8 - 1), rest) := by
  have small : n + 2 ^ (w.size * 8 - 1) < 256 ^ w.size := by
    refine (Nat.add_lt_add_right low _).trans_le ?_
    cases w <;> decide
  rw [getElem_little w rest small, if_pos (Nat.le_add_left ..), Nat.add_mod_right,
    Nat.mod_eq_of_lt low]

section turns
variable {ret : Int} {num' num'' bits' bits'' : Nat} {one two three : List UInt8}

theorem getFromMoonNum_first (first : getElem order .uint16 0 0 bytes = (ret, num, bits, one))
    (stop : ret ≤ 0) : getFromMoonNum order bytes = (ret, num, one) := by
  rw [getFromMoonNum, first]
  exact if_pos stop

theorem getFromMoonNum_second (first : getElem order .uint16 0 0 bytes = (1, num, bits, one))
    (second : getElem order .uint16 num bits one = (ret, num', bits', two)) (stop : ret ≤ 0) :
    getFromMoonNum order bytes = (ret, num', two) := by
  rw [getFromMoonNum, first]
  simp only [Int.reduceLE, if_false]
  rw [second]
  exact if_pos stop

theorem getFromMoonNum_third (first : getElem order .uint16 0 0 bytes = (1, num, bits, one))
    (second : getElem order .uint16 num bits one = (1, num', bits', two))
    (third : getElem order .uint32 num' bits' two = (ret, num'', bits'', three)) :
    getFromMoonNum order bytes = if ret < 0 then (ret, num'', three)
      else if 0 < ret then (0, num'' + 2 ^ bits'', three) else (0, num'', three) := by
  rw [getFromMoonNum, first]
  simp only [Int.reduceLE, if_false]
  rw [second]
  simp only [Int.reduceLE, if_false]
  rw [third]

end turns

/-- A number comes back from its bytes, on a host of either byte order. -/
theorem getFromMoonNum_moonBytes (small : n < 2 ^ 62) (rest : List UInt8) :
    getFromMoonNum order (moonBytes n ++ rest) = (0, n, rest) := by
  have low : n % 2 ^ 15 < 2 ^ 15 := Nat.mod_lt _ (by decide)
  rw [moonBytes]
  by_cases one : n < 2 ^ 15
  · rw [if_pos one]
    have first : getElem order .uint16 0 0 (little 2 n ++ rest) = _ :=
      getElem_last .uint16 rest one
    rw [getFromMoonNum_first first (Int.le_refl 0), pow_zero, Nat.mul_one, Nat.zero_add]
  · have first : ∀ behind, getElem order .uint16 0 0 (little 2 (n % 2 ^ 15 + 2 ^ 15) ++ behind) =
        (1, n % 2 ^ 15, 15, behind) := by
      intro behind
      have step : getElem order .uint16 0 0 _ = _ := getElem_more .uint16 behind low
      rwa [pow_zero, Nat.mul_one, Nat.zero_add] at step
    rw [if_neg one]
    by_cases two : n < 2 ^ 30
    · have high : n / 2 ^ 15 < 2 ^ 15 := by omega
      have second : getElem order .uint16 (n % 2 ^ 15) 15 (little 2 (n / 2 ^ 15) ++ rest) = _ :=
        getElem_last .uint16 rest high
      have whole : n % 2 ^ 15 + n / 2 ^ 15 * 2 ^ 15 = n := by omega
      rw [if_pos two, List.append_assoc,
        getFromMoonNum_second (first _) second (Int.le_refl 0), whole]
    · have mid : n / 2 ^ 15 % 2 ^ 15 < 2 ^ 15 := Nat.mod_lt _ (by decide)
      have second : getElem order .uint16 (n % 2 ^ 15) 15
          (little 2 (n / 2 ^ 15 % 2 ^ 15 + 2 ^ 15) ++ (little 4 (n / 2 ^ 30) ++ rest)) = _ :=
        getElem_more .uint16 (little 4 (n / 2 ^ 30) ++ rest) mid
      have value : n / 2 ^ 30 < 256 ^ Width.uint32.size := by
        change _ < 2 ^ 32
        omega
      have third : getElem order .uint32 (n % 2 ^ 15 + n / 2 ^ 15 % 2 ^ 15 * 2 ^ 15) 30
          (little 4 (n / 2 ^ 30) ++ rest) = _ := getElem_little .uint32 rest value
      rw [if_neg two, List.append_assoc, List.append_assoc]
      by_cases top : 2 ^ 31 ≤ n / 2 ^ 30
      · have whole : n % 2 ^ 15 + n / 2 ^ 15 % 2 ^ 15 * 2 ^ 15 +
            n / 2 ^ 30 % 2 ^ 31 * 2 ^ 30 + 2 ^ 61 = n := by omega
        rw [show Width.uint32.size * 8 - 1 = 31 from rfl, if_pos top] at third
        rw [getFromMoonNum_third (first _) second third]
        exact congrArg (fun x => ((0 : Int), x, rest)) whole
      · have whole : n % 2 ^ 15 + n / 2 ^ 15 % 2 ^ 15 * 2 ^ 15 + n / 2 ^ 30 * 2 ^ 30 = n := by
          omega
        rw [show Width.uint32.size * 8 - 1 = 31 from rfl, if_neg top] at third
        rw [getFromMoonNum_third (first _) second third]
        exact congrArg (fun x => ((0 : Int), x, rest)) whole

/-- What get_from_moon_num makes of any bytes. -/
structure Outcome (bytes : List UInt8) (ret : Int) (num : Nat) (rest : List UInt8) : Prop where
  failed : EndsInside bytes → ret = -1
  found : ¬ EndsInside bytes → ret = 0 ∧ num < 2 ^ 62 ∧
    ∃ k, (k = 2 ∨ k = 4 ∨ k = 8) ∧ k ≤ bytes.length ∧ rest = bytes.drop k

theorem getElem_go (long : 2 ≤ bytes.length) (more : 2 ^ 15 ≤ littleNum (bytes.take 2)) :
    getElem order .uint16 num bits bytes =
      (1, num + littleNum (bytes.take 2) % 2 ^ 15 * 2 ^ bits, bits + 15, bytes.drop 2) := by
  rw [getElem_long .uint16 long rfl]
  exact if_pos more

theorem getElem_stop (long : 2 ≤ bytes.length) (last : littleNum (bytes.take 2) < 2 ^ 15) :
    getElem order .uint16 num bits bytes =
      (0, num + littleNum (bytes.take 2) * 2 ^ bits, bits, bytes.drop 2) := by
  rw [getElem_long .uint16 long rfl]
  exact if_neg (Nat.not_le.mpr last)

theorem getFromMoonNum_outcome (order : ByteOrder) (bytes : List UInt8) :
    Outcome bytes (getFromMoonNum order bytes).1 (getFromMoonNum order bytes).2.1
      (getFromMoonNum order bytes).2.2 := by
  by_cases short : bytes.length < 2
  · rw [getFromMoonNum_first (getElem_short .uint16 short) (by decide)]
    exact ⟨fun _ => rfl, fun whole => absurd (.inl short) whole⟩
  have long := Nat.not_lt.mp short
  by_cases last : littleNum (bytes.take 2) < 2 ^ 15
  · rw [getFromMoonNum_first (getElem_stop long last) (Int.le_refl 0)]
    refine ⟨?_, fun _ => ⟨rfl, by dsimp only; omega, 2, .inl rfl, long, rfl⟩⟩
    rintro (no | ⟨no, _⟩)
    · exact absurd no short
    · exact absurd last (Nat.not_lt.mpr no)
  have more := Nat.not_lt.mp last
  have first : getElem order .uint16 0 0 bytes = _ := getElem_go long more
  have size : (bytes.drop 2).length = bytes.length - 2 := List.length_drop ..
  by_cases short' : bytes.length < 4
  · have behind : (bytes.drop 2).length < Width.uint16.size := by
      change _ < 2
      omega
    rw [getFromMoonNum_second first (getElem_short .uint16 behind) (by decide)]
    exact ⟨fun _ => rfl, fun whole => absurd (.inr ⟨more, .inl short'⟩) whole⟩
  have long' : 2 ≤ (bytes.drop 2).length := by omega
  have place : (bytes.drop 2).drop 2 = bytes.drop 4 := List.drop_drop ..
  by_cases last' : littleNum ((bytes.drop 2).take 2) < 2 ^ 15
  · rw [getFromMoonNum_second first (getElem_stop long' last') (Int.le_refl 0), place]
    refine ⟨?_, fun _ => ⟨rfl, by dsimp only; omega, 4, .inr (.inl rfl), by omega, rfl⟩⟩
    rintro (no | ⟨_, no | ⟨no, _⟩⟩)
    · exact absurd no short
    · exact absurd no short'
    · exact absurd last' (Nat.not_lt.mpr no)
  have more' := Nat.not_lt.mp last'
  have second : getElem order .uint16 (0 + littleNum (bytes.take 2) % 2 ^ 15 * 2 ^ 0) (0 + 15)
      (bytes.drop 2) = _ := getElem_go long' more'
  rw [place] at second
  have size' : (bytes.drop 4).length = bytes.length - 4 := List.length_drop ..
  by_cases short'' : bytes.length < 8
  · have behind : (bytes.drop 4).length < Width.uint32.size := by
      change _ < 4
      omega
    rw [getFromMoonNum_third first second (getElem_short .uint32 behind), if_pos (by decide)]
    exact ⟨fun _ => rfl, fun whole => absurd (.inr ⟨more, .inr ⟨more', short''⟩⟩) whole⟩
  have long'' : 4 ≤ (bytes.drop 4).length := by omega
  have place' : (bytes.drop 4).drop 4 = bytes.drop 8 := List.drop_drop ..
  have value : littleNum ((bytes.drop 4).take 4) < 2 ^ 32 := by
    refine (littleNum_lt _).trans_le ?_
    rw [List.length_take_of_le long'']
    decide
  have whole : ¬ EndsInside bytes := by
    rintro (no | ⟨_, no | ⟨_, no⟩⟩)
    · exact absurd no short
    · exact absurd no short'
    · exact absurd no short''
  have third := fun num => (getElem_long .uint32 long'' rfl :
    getElem order .uint32 num (0 + 15 + 15) (bytes.drop 4) = _)
  have behind : (bytes.drop 4).drop Width.uint32.size = bytes.drop 8 := place'
  by_cases top : 2 ^ 31 ≤ littleNum ((bytes.drop 4).take 4)
  · have third := fun num => (third num).trans (if_pos top)
    rw [getFromMoonNum_third first second (third _), if_neg (by decide), if_pos (by decide), behind]
    refine ⟨fun no => absurd no whole, fun _ => ⟨rfl, ?_, 8, .inr (.inr rfl), by omega, rfl⟩⟩
    simp only [show Width.uint32.size = 4 from rfl]
    omega
  · have third := fun num => (third num).trans (if_neg top)
    rw [getFromMoonNum_third first second (third _), if_neg (by decide), if_neg (by decide), behind]
    refine ⟨fun no => absurd no whole, fun _ => ⟨rfl, ?_, 8, .inr (.inr rfl), by omega, rfl⟩⟩
    simp only [show Width.uint32.size = 4 from rfl]
    omega

end decode

/-- On hosts of either byte order a number below 2^62 has the same bytes, from which it comes
back; a greater one is refused, and what is read from any bytes is a number below 2^62. -/
theorem moonNum_codec :
    (∀ n, n < 2 ^ 62 → ∃ bytes : List UInt8,
      (bytes.length = 2 ∧ n < 2 ^ 15 ∨ bytes.length = 4 ∧ 2 ^ 15 ≤ n ∧ n < 2 ^ 30 ∨
        bytes.length = 8 ∧ 2 ^ 30 ≤ n) ∧
      (∀ order c, convertToMoonNum order n c = (c.put bytes, 0) ∧
        read (c.put bytes).mem c.pc bytes.length = bytes) ∧
      ∀ order rest, getFromMoonNum order (bytes ++ rest) = (0, n, rest)) ∧
    (∀ order n c, 2 ^ 62 ≤ n → convertToMoonNum order n c = (c, -1)) ∧
    ∀ order bytes, Outcome bytes (getFromMoonNum order bytes).1
      (getFromMoonNum order bytes).2.1 (getFromMoonNum order bytes).2.2 := by
  refine ⟨?encoded, fun _ _ _ large => convertToMoonNum_large large, getFromMoonNum_outcome⟩
  intro n small
  have length := moonBytes_length n
  refine ⟨moonBytes n, ?_, fun _ c => ⟨convertToMoonNum_spec small, c.read_put _⟩,
    fun _ rest => getFromMoonNum_moonBytes small rest⟩
  split_ifs at length with one two
  · exact .inl ⟨length, one⟩
  · exact .inr (.inl ⟨length, Nat.not_lt.mp one, two⟩)
  · exact .inr (.inr ⟨length, Nat.not_lt.mp two⟩)

/-- The greatest number of one field, and the least of two. -/
example : moonBytes 32767 = [255, 127] ∧ moonBytes 32768 = [0, 128, 1, 0] := by decide

end MoonInWater.Sync.MoonNum
