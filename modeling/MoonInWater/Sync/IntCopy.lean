import MoonInWater.Lib.Digits
import MoonInWater.Sync.BlockCopy

/-! unsigned_int_copy and signed_int_copy: the values of the integers that they leave. -/
namespace MoonInWater.Sync.Copy
open Bytes Endian

section
variable {src mem : Memory} {p q : Nat → Nat} {n k j a : Nat}

theorem copyLoop_succ : copyLoop src p q (n + 1) mem =
    Function.update (copyLoop src p q n mem) (p n) (src (q n)) := rfl

theorem extendLoop_succ : extendLoop p k (n + 1) mem =
    Function.update (extendLoop p k n mem) (p (k + n)) 255 := rfl

theorem copyLoop_apart (apart : ∀ j < n, p j ≠ a) : copyLoop src p q n mem a = mem a := by
  induction n with
  | zero => rfl
  | succ n ih =>
    have other : a ≠ p n := fun same => apart n (Nat.lt_succ_self n) same.symm
    rw [copyLoop_succ, Function.update_of_ne other]
    exact ih fun j less => apart j (Nat.lt_succ_of_lt less)

theorem copyLoop_at (inj : ∀ i j, i < n → j < n → p i = p j → i = j) (inside : j < n) :
    copyLoop src p q n mem (p j) = src (q j) := by
  induction n with
  | zero => exact absurd inside (Nat.not_lt_zero j)
  | succ n ih =>
    rcases Nat.lt_or_eq_of_le (Nat.le_of_lt_succ inside) with less | rfl
    · have other : p j ≠ p n := by
        intro same
        have equal := inj j n inside (Nat.lt_succ_self n) same
        omega
      rw [copyLoop_succ, Function.update_of_ne other]
      apply ih _ less
      intro i j less less'
      exact inj i j (Nat.lt_succ_of_lt less) (Nat.lt_succ_of_lt less')
    · rw [copyLoop_succ, Function.update_self]

theorem extendLoop_apart (apart : ∀ j < n, p (k + j) ≠ a) : extendLoop p k n mem a = mem a := by
  induction n with
  | zero => rfl
  | succ n ih =>
    have other : a ≠ p (k + n) := fun same => apart n (Nat.lt_succ_self n) same.symm
    rw [extendLoop_succ, Function.update_of_ne other]
    exact ih fun j less => apart j (Nat.lt_succ_of_lt less)

theorem extendLoop_at (inside : j < n) : extendLoop p k n mem (p (k + j)) = 255 := by
  induction n with
  | zero => exact absurd inside (Nat.not_lt_zero j)
  | succ n ih =>
    rw [extendLoop_succ]
    by_cases same : p (k + j) = p (k + n)
    · rw [same, Function.update_self]
    · rcases Nat.lt_or_eq_of_le (Nat.le_of_lt_succ inside) with less | rfl
      · rw [Function.update_of_ne same]
        exact ih less
      · exact absurd rfl same

/-- Turns that each write the places of their own element. -/
theorem elements_at (value : Nat → Nat → UInt8 → UInt8) {turn : Nat → Memory → Memory}
    {places : Nat → Nat → Nat} {d : Nat}
    (apart : ∀ i i' j j', j < d → j' < d → places i j = places i' j' → i = i')
    (writes : ∀ i mem, ∀ j < d, turn i mem (places i j) = value i j (mem (places i j)))
    (keeps : ∀ i mem a, (∀ j < d, places i j ≠ a) → turn i mem a = mem a) (n : Nat) {i j : Nat}
    (inside : j < d) : elements turn n mem (places i j) =
      if i < n then value i j (mem (places i j)) else mem (places i j) := by
  induction n with
  | zero => rfl
  | succ n ih =>
    rw [elements]
    by_cases own : i = n
    · subst own
      rw [writes i _ j inside, ih, if_neg (Nat.lt_irrefl i), if_pos (Nat.lt_succ_self i)]
    · rw [keeps n _ _ fun j' less same => own (apart n i j' j less inside same).symm, ih]
      by_cases less : i < n
      · rw [if_pos less, if_pos (Nat.lt_succ_of_lt less)]
      · rw [if_neg less, if_neg (by omega)]

end

/-- The byte orders of both sides: a copy with flag 0 goes from the host to the wire. -/
def srcOrder (order : ByteOrder) (flag : Int) : ByteOrder := if flag = 0 then order else .little

def dstOrder (order : ByteOrder) (flag : Int) : ByteOrder := if flag = 0 then .little else order

section
variable (order : ByteOrder) (src mem : Memory) (s d : Nat) (pCopy : BlockCopy)

/-- The elements of the source and of the destination as unsigned numbers. -/
def srcElem (i : Nat) : Nat := load (srcOrder order pCopy.flag) (read src (pCopy.src + s * i) s)

def dstElem (i : Nat) : Nat := load (dstOrder order pCopy.flag) (read mem (pCopy.dst + d * i) d)

/-- signed_int_copy takes the number for a negative one. On its way from a big-endian host it looks
at the lowest byte. -/
def SeenNegative (x : Nat) : Prop :=
  if order = .big ∧ pCopy.flag = 0 then 128 ≤ x % 256 else 256 ^ s / 2 ≤ x

instance (x : Nat) : Decidable (SeenNegative order s pCopy x) := by
  unfold SeenNegative
  exact inferInstance

end

section
variable {order : ByteOrder} {src mem : Memory} {s d i j : Nat} {pCopy : BlockCopy}

theorem srcByte_eq : srcByte order s pCopy i j =
    place (srcOrder order pCopy.flag) (pCopy.src + s * i) s j := by
  cases order with
  | little =>
    have host : srcOrder .little pCopy.flag = .little := by simp [srcOrder]
    rw [host]
    rfl
  | big =>
    by_cases out : pCopy.flag = 0
    · simp only [srcByte, srcOrder, if_pos out, place, Nat.mul_succ]
      omega
    · simp only [srcByte, srcOrder, if_neg out, place]

theorem dstByte_eq : dstByte order d pCopy i j =
    place (dstOrder order pCopy.flag) (pCopy.dst + d * i) d j := by
  cases order with
  | little =>
    have host : dstOrder .little pCopy.flag = .little := by simp [dstOrder]
    rw [host]
    rfl
  | big =>
    by_cases out : pCopy.flag = 0
    · simp only [dstByte, dstOrder, if_pos out, place]
    · simp only [dstByte, dstOrder, if_neg out, place, Nat.mul_succ]
      omega

theorem dstByte_inj {j' : Nat} (inside : j < d) (inside' : j' < d)
    (same : dstByte order d pCopy i j = dstByte order d pCopy i j') : j = j' := by
  rw [dstByte_eq, dstByte_eq] at same
  exact place_inj inside inside' same

/-- The bytes of different elements are different ones. -/
theorem dstByte_apart {i' j' : Nat} (inside : j < d) (inside' : j' < d)
    (same : dstByte order d pCopy i j = dstByte order d pCopy i' j') : i = i' := by
  rw [dstByte_eq, dstByte_eq] at same
  obtain ⟨low, high⟩ : pCopy.dst + d * i ≤ place (dstOrder order pCopy.flag) (pCopy.dst + d * i) d j
      ∧ _ := place_inside inside
  obtain ⟨low', high'⟩ : pCopy.dst + d * i' ≤
      place (dstOrder order pCopy.flag) (pCopy.dst + d * i') d j' ∧ _ := place_inside inside'
  rcases Nat.lt_trichotomy i i' with less | equal | more
  · have next : d * (i + 1) ≤ d * i' := Nat.mul_le_mul_left d less
    rw [Nat.mul_succ] at next
    omega
  · exact equal
  · have next : d * (i' + 1) ≤ d * i := Nat.mul_le_mul_left d more
    rw [Nat.mul_succ] at next
    omega

/-- What both copies leave in the bytes of the elements: those of the source, behind them 255 each
where the number is taken for a negative one, and otherwise what was there. -/
def Copied (order : ByteOrder) (src : Memory) (s d : Nat) (pCopy : BlockCopy)
    (negative : Nat → Bool) (mem mem' : Memory) : Prop :=
  ∀ i < pCopy.num, ∀ j < d, mem' (dstByte order d pCopy i j) =
    if j < s then src (srcByte order s pCopy i j)
    else if negative i then 255 else mem (dstByte order d pCopy i j)

theorem memcpy_at {n k : Nat} {p q : Nat} (inside : k < n) :
    memcpy mem p src q n (p + k) = src (q + k) := by
  have same : read (memcpy mem p src q n) p n = read src q n := read_written read_length
  rw [read_eq_map, read_eq_map] at same
  have both := congrArg (fun bytes => bytes[k]?) same
  simpa only [List.getElem?_map, List.getElem?_range inside, Option.map_some, Option.some.injEq]
    using both

/-- On a little-endian host numbers of one size are copied as they are. -/
theorem memcpy_copied {negative : Nat → Bool} :
    Copied .little src d d pCopy negative mem
      (memcpy mem pCopy.dst src pCopy.src (pCopy.num * d)) := by
  intro i below j inside
  have next : d * (i + 1) ≤ d * pCopy.num := Nat.mul_le_mul_left d below
  rw [Nat.mul_succ, Nat.mul_comm d pCopy.num] at next
  have less : d * i + j < pCopy.num * d := by omega
  have here : memcpy mem pCopy.dst src pCopy.src (pCopy.num * d) (pCopy.dst + (d * i + j)) =
      src (pCopy.src + (d * i + j)) := memcpy_at less
  rw [if_pos inside]
  simpa only [dstByte, srcByte, Nat.add_assoc] using here

/-- A loop whose turns each write an element so. -/
theorem elements_copied {turn : Nat → Memory → Memory} {negative : Nat → Bool}
    (writes : ∀ i mem, ∀ j < d, turn i mem (dstByte order d pCopy i j) =
      if j < s then src (srcByte order s pCopy i j)
      else if negative i then 255 else mem (dstByte order d pCopy i j))
    (keeps : ∀ i mem a, (∀ j < d, dstByte order d pCopy i j ≠ a) → turn i mem a = mem a) :
    Copied order src s d pCopy negative mem (elements turn pCopy.num mem) := by
  intro i below j inside
  have apart : ∀ i i' j j', j < d → j' < d →
      dstByte order d pCopy i j = dstByte order d pCopy i' j' → i = i' :=
    fun _ _ _ _ => dstByte_apart
  have result : elements turn pCopy.num mem (dstByte order d pCopy i j) = _ :=
    elements_at (fun i j old =>
      if j < s then src (srcByte order s pCopy i j) else if negative i then 255 else old)
      apart writes keeps pCopy.num inside
  rwa [if_pos below] at result

/-- The turn of both loops that copies an element. -/
theorem copyLoop_elem (fits : s ≤ d) (inside : j < d) :
    copyLoop src (dstByte order d pCopy i) (srcByte order s pCopy i) s mem
        (dstByte order d pCopy i j) =
      if j < s then src (srcByte order s pCopy i j) else mem (dstByte order d pCopy i j) := by
  by_cases copied : j < s
  · rw [if_pos copied]
    exact copyLoop_at (fun j j' less less' => dstByte_inj (by omega) (by omega)) copied
  · rw [if_neg copied]
    apply copyLoop_apart
    intro j' less same
    have equal := dstByte_inj (by omega) inside same
    omega

theorem unsigned_copied (fits : s ≤ d) :
    Copied order src s d pCopy (fun _ => false) mem (unsignedIntCopy order src s d pCopy mem) := by
  unfold unsignedIntCopy
  by_cases same : s = d ∧ order = .little
  · obtain ⟨rfl, rfl⟩ := same
    rw [if_pos ⟨rfl, rfl⟩]
    exact memcpy_copied
  · rw [if_neg same, Nat.min_eq_left fits]
    apply elements_copied
    · intro i mem j inside
      exact copyLoop_elem fits inside
    · intro i mem a apart
      exact copyLoop_apart fun j less => apart j (by omega)

/-- The byte of the sign says what the number is taken for. -/
theorem sign_seen (positive : 0 < s) (fits : s ≤ d) :
    128 ≤ (src (signByte order s d pCopy i)).toNat ↔
      SeenNegative order s pCopy (srcElem order src s pCopy i) := by
  obtain ⟨r, rfl⟩ := Nat.exists_eq_add_of_lt positive
  unfold SeenNegative srcElem
  rw [load_eq_digits]
  by_cases lowest : order = .big ∧ pCopy.flag = 0
  · obtain ⟨rfl, out⟩ := lowest
    have first : signByte .big (0 + r + 1) d pCopy i =
        place .big (pCopy.src + (0 + r + 1) * i) (0 + r + 1) 0 := by
      simp only [signByte, if_pos out, place, Nat.mul_succ]
      omega
    have order' : srcOrder .big pCopy.flag = .big := if_pos out
    rw [if_pos ⟨rfl, out⟩, order', first, List.range_succ_eq_map, List.map_cons, littleNum]
    have small := (src (place .big (pCopy.src + (0 + r + 1) * i) (0 + r + 1) 0)).toNat_lt
    omega
  · rw [if_neg lowest]
    have order' : srcOrder order pCopy.flag = .little := by
      unfold srcOrder
      by_cases out : pCopy.flag = 0
      · rw [if_pos out]
        cases order with
        | little => rfl
        | big => exact absurd ⟨rfl, out⟩ lowest
      · exact if_neg out
    have last : signByte order (0 + r + 1) d pCopy i =
        place .little (pCopy.src + (0 + r + 1) * i) (0 + r + 1) (0 + r) := by
      have least : min (0 + r + 1) d - 1 = 0 + r := by omega
      cases order with
      | little => simp only [signByte, least, place]
      | big =>
        have other : ¬ pCopy.flag = 0 := fun out => lowest ⟨rfl, out⟩
        simp only [signByte, least, if_neg other, place]
    have half := digits_half (f := fun j =>
      src (place .little (pCopy.src + (0 + r + 1) * i) (0 + r + 1) j)) (0 + r)
    rw [order', last]
    constructor
    · intro top
      by_contra low
      have below := half.mp (Nat.lt_of_not_le low)
      omega
    · intro high
      by_contra low
      have below := half.mpr (Nat.lt_of_not_le low)
      omega

theorem signed_copied (positive : 0 < s) (fits : s ≤ d) :
    Copied order src s d pCopy
      (fun i => decide (SeenNegative order s pCopy (srcElem order src s pCopy i))) mem
      (signedIntCopy order src s d pCopy mem) := by
  unfold signedIntCopy
  by_cases same : s = d ∧ order = .little
  · obtain ⟨rfl, rfl⟩ := same
    rw [if_pos ⟨rfl, rfl⟩]
    exact memcpy_copied
  · rw [if_neg same, Nat.min_eq_left fits]
    apply elements_copied
    · intro i mem j inside
      have copied : ∀ j < d, copyLoop src (dstByte order d pCopy i) (srcByte order s pCopy i) s mem
          (dstByte order d pCopy i j) = _ := fun j => copyLoop_elem fits
      by_cases extended : s < d ∧ 128 ≤ (src (signByte order s d pCopy i)).toNat
      · have seen := (sign_seen positive fits).mp extended.2
        rw [if_pos extended]
        by_cases front : j < s
        · rw [extendLoop_apart, copied j inside, if_pos front, if_pos front]
          intro k less same
          have equal := dstByte_inj (by omega) inside same
          omega
        · have rear : j = s + (j - s) := by omega
          rw [if_neg front, if_pos (decide_eq_true seen), rear]
          exact extendLoop_at (by omega)
      · rw [if_neg extended, copied j inside]
        by_cases front : j < s
        · rw [if_pos front, if_pos front]
        · have unseen : ¬ SeenNegative order s pCopy (srcElem order src s pCopy i) :=
            fun seen => extended ⟨by omega, (sign_seen positive fits).mpr seen⟩
          rw [if_neg front, if_neg front, decide_eq_false unseen]
          rfl
    · intro i mem a apart
      have kept : copyLoop src (dstByte order d pCopy i) (srcByte order s pCopy i) s mem a =
          mem a := copyLoop_apart fun j less => apart j (by omega)
      split
      · rw [extendLoop_apart fun j less => apart (s + j) (by omega)]
        exact kept
      · exact kept

/-- The value of an element behind such a copy: that of the source, with what stands behind it. -/
theorem copied_value {negative : Nat → Bool} {mem' : Memory} (fits : s ≤ d)
    (copied : Copied order src s d pCopy negative mem mem') (below : i < pCopy.num) :
    dstElem order mem' d pCopy i = srcElem order src s pCopy i + 256 ^ s *
      (if negative i then 256 ^ (d - s) - 1 else dstElem order mem d pCopy i / 256 ^ s) := by
  obtain ⟨m, rfl⟩ := Nat.exists_eq_add_of_le fits
  have bytes : (List.range (s + m)).map (fun j =>
      mem' (place (dstOrder order pCopy.flag) (pCopy.dst + (s + m) * i) (s + m) j)) =
      (List.range (s + m)).map fun j => if j < s then src (srcByte order s pCopy i j)
        else if negative i then 255 else mem (dstByte order (s + m) pCopy i j) := by
    apply List.map_congr_left
    intro j member
    rw [← dstByte_eq]
    exact copied i below j (List.mem_range.mp member)
  have front : (List.range s).map (fun j => if j < s then src (srcByte order s pCopy i j)
        else if negative i then 255 else mem (dstByte order (s + m) pCopy i j)) =
      (List.range s).map fun j =>
        src (place (srcOrder order pCopy.flag) (pCopy.src + s * i) s j) := by
    apply List.map_congr_left
    intro j member
    rw [if_pos (List.mem_range.mp member), srcByte_eq]
  have rear : (List.range m).map (fun j => if s + j < s then src (srcByte order s pCopy i (s + j))
        else if negative i then 255 else mem (dstByte order (s + m) pCopy i (s + j))) =
      (List.range m).map fun j =>
        if negative i then 255 else mem (dstByte order (s + m) pCopy i (s + j)) := by
    apply List.map_congr_left
    intro j _
    rw [if_neg (by omega)]
  unfold dstElem srcElem
  rw [load_eq_digits, load_eq_digits, load_eq_digits, bytes, digits_split, front, rear,
    Nat.add_sub_cancel_left]
  congr 2
  cases negative i with
  | true => exact digits_ones m
  | false =>
    simp only [dstByte_eq, Bool.false_eq_true, if_false]
    exact digits_high (f := fun j =>
      mem (place (dstOrder order pCopy.flag) (pCopy.dst + (s + m) * i) (s + m) j)) s m

end

/-- unsigned_int_copy leaves the value of each element. -/
def KeepsUnsigned (order : ByteOrder) (src : Memory) (s d : Nat) (pCopy : BlockCopy)
    (mem : Memory) : Prop :=
  ∀ i < pCopy.num, dstElem order (unsignedIntCopy order src s d pCopy mem) d pCopy i =
    srcElem order src s pCopy i

/-- signed_int_copy leaves the value of each element in two's complement. -/
def KeepsSigned (order : ByteOrder) (src : Memory) (s d : Nat) (pCopy : BlockCopy)
    (mem : Memory) : Prop :=
  ∀ i < pCopy.num, signed d (dstElem order (signedIntCopy order src s d pCopy mem) d pCopy i) =
    signed s (srcElem order src s pCopy i)

/-- The further bytes of an element of the destination were zero. -/
def Clear (order : ByteOrder) (s d : Nat) (pCopy : BlockCopy) (mem : Memory) (i : Nat) : Prop :=
  dstElem order mem d pCopy i < 256 ^ s

/-- The further bytes of an element of the destination are those of its sign before the copy, or
are made so by it. -/
def SignReady (order : ByteOrder) (src : Memory) (s d : Nat) (pCopy : BlockCopy) (mem : Memory)
    (i : Nat) : Prop :=
  if srcElem order src s pCopy i < 256 ^ s / 2 then
    ¬ SeenNegative order s pCopy (srcElem order src s pCopy i) ∧ Clear order s d pCopy mem i
  else
    SeenNegative order s pCopy (srcElem order src s pCopy i) ∨
      dstElem order mem d pCopy i / 256 ^ s = 256 ^ (d - s) - 1

section
variable {order : ByteOrder} {src mem : Memory} {s d i : Nat} {pCopy : BlockCopy}

theorem unsigned_keeps_iff (fits : s ≤ d) (below : i < pCopy.num) :
    dstElem order (unsignedIntCopy order src s d pCopy mem) d pCopy i =
      srcElem order src s pCopy i ↔ Clear order s d pCopy mem i := by
  have positive : 0 < 256 ^ s := Nat.pow_pos (by decide)
  have copied : Copied order src s d pCopy (fun _ => false) mem
      (unsignedIntCopy order src s d pCopy mem) := unsigned_copied fits
  have value := copied_value fits copied below
  simp only [Bool.false_eq_true, if_false] at value
  rw [value, Clear, Nat.add_eq_left, Nat.mul_eq_zero, Nat.div_eq_zero_iff]
  omega

theorem signed_keeps_iff (positive : 0 < s) (less : s < d) (below : i < pCopy.num) :
    signed d (dstElem order (signedIntCopy order src s d pCopy mem) d pCopy i) =
      signed s (srcElem order src s pCopy i) ↔ SignReady order src s d pCopy mem i := by
  obtain ⟨m, rfl⟩ := Nat.exists_eq_add_of_le less.le
  have copied : Copied order src s (s + m) pCopy
      (fun i => decide (SeenNegative order s pCopy (srcElem order src s pCopy i))) mem
      (signedIntCopy order src s (s + m) pCopy mem) := signed_copied positive less.le
  have value := copied_value less.le copied below
  have small : srcElem order src s pCopy i < 256 ^ s := load_lt
  have whole : dstElem order mem (s + m) pCopy i < 256 ^ (s + m) := load_lt
  have room : 0 < 256 ^ s := Nat.pow_pos (by decide)
  have ones : 1 < 256 ^ m := Nat.one_lt_pow (by omega) (by decide)
  have high : dstElem order mem (s + m) pCopy i / 256 ^ s < 256 ^ m := by
    rw [pow_add] at whole
    exact Nat.div_lt_of_lt_mul whole
  have clear : dstElem order mem (s + m) pCopy i / 256 ^ s = 0 ↔
      dstElem order mem (s + m) pCopy i < 256 ^ s := by
    rw [Nat.div_eq_zero_iff]
    omega
  rw [Nat.add_sub_cancel_left] at value
  unfold SignReady Clear
  rw [value, Nat.add_sub_cancel_left]
  by_cases seen : SeenNegative order s pCopy (srcElem order src s pCopy i)
  · rw [if_pos (decide_eq_true seen), signed_extend positive small (by omega)]
    by_cases half : srcElem order src s pCopy i < 256 ^ s / 2
    · rw [if_pos half, if_pos half]
      constructor
      · intro none'
        omega
      · rintro ⟨unseen, _⟩
        exact absurd seen unseen
    · rw [if_neg half, if_neg half]
      exact iff_of_true rfl (.inl seen)
  · rw [if_neg (by rw [decide_eq_false seen]; decide), signed_extend positive small high]
    by_cases half : srcElem order src s pCopy i < 256 ^ s / 2
    · rw [if_pos half, if_pos half, clear]
      exact (and_iff_right seen).symm
    · rw [if_neg half, if_neg half]
      exact (or_iff_right seen).symm

/-- Numbers of one size keep their value. -/
theorem signed_keeps_same (positive : 0 < s) (below : i < pCopy.num) :
    dstElem order (signedIntCopy order src s s pCopy mem) s pCopy i =
      srcElem order src s pCopy i := by
  have copied : Copied order src s s pCopy
      (fun i => decide (SeenNegative order s pCopy (srcElem order src s pCopy i))) mem
      (signedIntCopy order src s s pCopy mem) := signed_copied positive (Nat.le_refl s)
  have value := copied_value (Nat.le_refl s) copied below
  have whole : dstElem order mem s pCopy i / 256 ^ s = 0 := Nat.div_eq_of_lt load_lt
  rw [value, whole, Nat.sub_self, pow_zero, Nat.sub_self, ite_self, Nat.mul_zero, Nat.add_zero]

end

/-- One element of the source at 0, to the destination at 0. -/
def element (flag : Int) : BlockCopy := ⟨flag, 0, 0, 0, 0, 1⟩

/-- A number of one byte is spoilt by what the destination held. On its way from a big-endian host
128 becomes negative in a zeroed destination. -/
theorem value_lost :
    ¬ KeepsUnsigned .little (fun _ => 5) 1 2 (element 0) (fun _ => 255) ∧
      ¬ KeepsSigned .little (fun _ => 5) 1 2 (element 0) (fun _ => 255) ∧
      ¬ KeepsSigned .big (fun a => if a = 1 then 128 else 0) 2 4 (element 0) (fun _ => 0) := by
  refine ⟨?_, ?_, ?_⟩
  · intro keeps
    exact absurd (keeps 0 (by decide)) (by decide)
  · intro keeps
    exact absurd (keeps 0 (by decide)) (by decide)
  · intro keeps
    exact absurd (keeps 0 (by decide)) (by decide)

/-- The copies keep the values of all elements whose further bytes need no change, or are changed,
and of no others. -/
theorem copies_keep_iff (order : ByteOrder) (src mem : Memory) (s d : Nat) (pCopy : BlockCopy)
    (positive : 1 ≤ s) (fits : s ≤ d) :
    (KeepsUnsigned order src s d pCopy mem ↔ ∀ i < pCopy.num, Clear order s d pCopy mem i) ∧
      (KeepsSigned order src s d pCopy mem ↔
        s = d ∨ ∀ i < pCopy.num, SignReady order src s d pCopy mem i) := by
  constructor
  · exact forall₂_congr fun i below => unsigned_keeps_iff fits below
  · rcases Nat.lt_or_eq_of_le fits with less | rfl
    · rw [or_iff_right (Nat.ne_of_lt less)]
      exact forall₂_congr fun i below => signed_keeps_iff positive less below
    · apply iff_of_true
      · intro i below
        rw [signed_keeps_same positive below]
      · exact .inl rfl

theorem copies_keep_iff_zeroed :
    KeepsUnsigned .little (fun _ => 5) 1 2 (element 0) (fun _ => 0) ∧
      KeepsSigned .big (fun _ => 133) 1 2 (element 1) (fun _ => 0) := by
  constructor
  · apply (copies_keep_iff .little (fun _ => 5) (fun _ => 0) 1 2 (element 0) (by decide)
      (by decide)).1.mpr
    unfold Clear
    decide
  · apply (copies_keep_iff .big (fun _ => 133) (fun _ => 0) 1 2 (element 1) (by decide)
      (by decide)).2.mpr
    unfold SignReady Clear
    decide

end MoonInWater.Sync.Copy
