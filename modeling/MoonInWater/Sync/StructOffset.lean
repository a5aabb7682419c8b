import MoonInWater.Sync.StructTable

/-! get_target_offset, compared with the elements that a layout has at an offset. -/
namespace MoonInWater.Sync.StructTable
open CInt
variable {mem : Memory} {src dst all : StructAll} {t : Nat} {num offset offset' : Int}

/-- The layout of a table: the fields of a type follow each other inside it, each with room for
its elements, and no type contains itself. -/
structure WellFormed (mem : Memory) (all : StructAll) : Prop where
  sizes : ∀ t one, getStructOne mem all t = some one → 0 < one.size
  present : ∀ t, t < all.ones.length → ∃ one, getStructOne mem all t = some one
  order : ∀ t one, getStructOne mem all t = some one →
    one.vars.Pairwise fun v w => v.addr + v.size ≤ w.addr
  inside : ∀ t one, getStructOne mem all t = some one → ∀ v ∈ one.vars,
    0 ≤ v.addr ∧ 0 ≤ v.len ∧ v.addr + v.size ≤ one.size ∧
      ∃ elem, getStructOne mem all v.typeNum = some elem ∧ v.size = v.len * elem.size
  acyclic : ∃ rank : Nat → Nat, ∀ t one, getStructOne mem all t = some one →
    ∀ v ∈ one.vars, rank v.typeNum < rank t

/-- The types have as many fields, of the same types and lengths. -/
structure SameShape (mem : Memory) (src dst : StructAll) : Prop where
  length : src.ones.length = dst.ones.length
  vars : ∀ t one one', getStructOne mem src t = some one → getStructOne mem dst t = some one' →
    one.vars.map (fun v => (v.typeNum, v.len)) = one'.vars.map fun v => (v.typeNum, v.len)

/-- The outermost element that starts at an offset of an array of `num` elements of the type `t`,
reached through fields that are not hidden, with its offset in the other layout. -/
inductive Target (mem : Memory) (src dst : StructAll) : Nat → Int → Int → Int → Prop where
  | elem {t : Nat} {num : Int} {one one' : StructOne} {k : Nat}
      (here : getStructOne mem src t = some one)
      (there : getStructOne mem dst t = some one') (below : (k : Int) < num) :
      Target mem src dst t num (k * one.size) (k * one'.size)
  | field {t : Nat} {num : Int} {one one' : StructOne} {k j : Nat} {v v' : Var}
      {inner inner' : Int} (here : getStructOne mem src t = some one)
      (there : getStructOne mem dst t = some one')
      (below : (k : Int) < num) (var : one.vars[j]? = some v) (var' : one'.vars[j]? = some v')
      (visible : v.isHide ≤ 0) (behind : 0 < v.addr + inner)
      (target : Target mem src dst v.typeNum v.len inner inner') :
      Target mem src dst t num (k * one.size + (v.addr + inner))
        (k * one'.size + (v'.addr + inner'))

/-- The element of a call of get_target_offset. -/
def IsTarget (mem : Memory) (src dst : StructAll) (offset typeIndex num offset' : Int) : Prop :=
  0 ≤ typeIndex ∧ Target mem src dst typeIndex.toNat num offset offset'

/-- get_target_offset returns the offset of the element, or -1 where there is none, and back. -/
def Translates (mem : Memory) (src dst : StructAll) (offset typeIndex num : Int) : Prop :=
  ∃ result, getTargetOffset mem src dst offset typeIndex num = some result ∧
    (∀ offset', IsTarget mem src dst offset typeIndex num offset' → result = offset') ∧
    ((∀ offset', ¬ IsTarget mem src dst offset typeIndex num offset') → result = -1) ∧
    (0 ≤ result → getTargetOffset mem dst src result typeIndex num = some offset)

/-- The type is a basic one, and the length of the array as an `int` is above the offset. -/
def Basic (mem : Memory) (all : StructAll) (t : Nat) (num offset : Int) : Prop :=
  ∃ one, getStructOne mem all t = some one ∧ one.vars = [] ∧ offset < i32 (one.size * num)

section
variable (wf : WellFormed mem src) (wf' : WellFormed mem dst)

include wf wf' in
theorem Target.nonneg (target : Target mem src dst t num offset offset') :
    0 ≤ offset ∧ 0 ≤ offset' := by
  induction target with
  | elem here there below =>
    have positive := wf.sizes _ _ here
    have positive' := wf'.sizes _ _ there
    constructor
    · exact Int.mul_nonneg (Int.natCast_nonneg _) positive.le
    · exact Int.mul_nonneg (Int.natCast_nonneg _) positive'.le
  | @field t num one one' k j v v' inner inner' here there below var var' visible behind target
      ih =>
    have start := Int.mul_nonneg (Int.natCast_nonneg k) (wf.sizes _ _ here).le
    have start' := Int.mul_nonneg (Int.natCast_nonneg k) (wf'.sizes _ _ there).le
    have addr' := (wf'.inside _ _ there v' (List.mem_of_getElem? var')).1
    omega

include wf in
/-- The element at offset 0 is the first one. -/
theorem Target.first (target : Target mem src dst t num offset offset') (zero : offset = 0) :
    offset' = 0 ∧ 0 < num := by
  cases target with
  | elem here there below =>
    have positive := wf.sizes _ _ here
    rcases Int.mul_eq_zero.mp zero with none | size
    · rw [none, Int.zero_mul]
      exact ⟨rfl, none ▸ below⟩
    · omega
  | @field _ _ one one' k j v v' inner inner' here there below var var' visible behind target =>
    have start := Int.mul_nonneg (Int.natCast_nonneg k) (wf.sizes _ _ here).le
    omega

theorem i32_le {x : Int} (nonneg : 0 ≤ i32 x) (positive : 0 ≤ x) : i32 x ≤ x := by
  simp only [i32] at nonneg ⊢
  omega

end

theorem getStructOne_lt {one : StructOne} (here : getStructOne mem all t = some one) :
    t < all.ones.length := by
  obtain ⟨p, found, _⟩ := Option.bind_eq_some_iff.mp here
  exact (List.getElem?_eq_some_iff.mp found).1

/-- The loop of get_target_offset: a type with fields gives -1 for each offset behind 0. -/
theorem getTargetOffset_eq {one one' : StructOne} (here : getStructOne mem src t = some one)
    (there : getStructOne mem dst t = some one') (size : 0 < one.size) (positive : 0 < offset)
    (count : 0 ≤ num) :
    getTargetOffset mem src dst offset t num = some (
      if i32 (one.size * num) ≤ offset then -1
      else if one.vars = [] ∧ offset % one.size = 0 then i32 (offset / one.size * one'.size)
      else -1) := by
  have less := getStructOne_lt here
  have quotient : offset.tdiv one.size = offset / one.size :=
    Int.tdiv_eq_ediv_of_nonneg positive.le
  have rest : offset.tmod one.size = offset % one.size := Int.tmod_eq_emod_of_nonneg positive.le
  have once : i32 (0 + i32 (offset / one.size * one'.size)) =
      i32 (offset / one.size * one'.size) := by
    simp only [i32]
    omega
  rw [getTargetOffset, if_neg (by omega), if_pos positive]
  simp only [Int.toNat_natCast, here, there, Option.bind_eq_bind, Option.bind_some, quotient, rest,
    once]
  by_cases long : i32 (one.size * num) ≤ offset
  · rw [if_pos long, if_pos long]
  · rw [if_neg long, if_neg long, if_neg (by omega)]
    by_cases basic : one.vars = []
    · simp only [basic, List.length_nil, if_true, true_and]
      by_cases whole : offset % one.size = 0
      · rw [if_neg (not_not.mpr whole), if_pos whole]
      · rw [if_pos whole, if_neg whole]
    · have some' : one.vars.length ≠ 0 := fun none => basic (List.length_eq_zero_iff.mp none)
      rw [if_neg some', if_neg (fun both => basic both.1)]

/-- A basic type is translated up to the lengths of both arrays. -/
theorem getTargetOffset_basic {one one' : StructOne} {k : Nat}
    (here : getStructOne mem src t = some one) (there : getStructOne mem dst t = some one')
    (size : 0 < one.size) (size' : 0 < one'.size) (vars : one.vars = []) (some' : 0 < k)
    (count : 0 ≤ num) (fits : k * one.size < i32 (one.size * num))
    (fits' : k * one'.size < i32 (one'.size * num)) :
    getTargetOffset mem src dst (k * one.size) t num = some (k * one'.size) := by
  have positive : 0 < (k : Int) * one.size := Int.mul_pos (Int.natCast_pos.mpr some') size
  have whole : (k : Int) * one.size % one.size = 0 := Int.mul_emod_left ..
  have count' : (k : Int) * one.size / one.size = k := Int.mul_ediv_cancel _ (Int.ne_of_gt size)
  have nonneg : 0 ≤ (k : Int) * one'.size := Int.mul_nonneg (Int.natCast_nonneg k) size'.le
  have small : i32 ((k : Int) * one'.size) = k * one'.size := by
    have bound : i32 (one'.size * num) < 2 ^ 31 := by
      simp only [i32]
      omega
    exact i32_eq (by omega) (by omega)
  rw [getTargetOffset_eq here there size positive count, if_neg (by omega), if_pos ⟨vars, whole⟩,
    count', small]

section
variable (wf : WellFormed mem src) (wf' : WellFormed mem dst) (same : SameShape mem src dst)

/-- The element of a basic type is one of the array. -/
theorem Target.basic {one one' : StructOne} (here : getStructOne mem src t = some one)
    (there : getStructOne mem dst t = some one') (vars : one.vars = [])
    (target : Target mem src dst t num offset offset') :
    ∃ k : Nat, (k : Int) < num ∧ offset = k * one.size ∧ offset' = k * one'.size := by
  cases target with
  | @elem _ _ _ _ k here' there' below =>
    cases here.symm.trans here'
    cases there.symm.trans there'
    exact ⟨k, below, rfl, rfl⟩
  | field here' there' below var var' visible behind target =>
    cases here.symm.trans here'
    rw [vars] at var
    contradiction

/-- The condition under which get_target_offset translates: an offset behind 0 of an element is
one of an array of a basic type, whose length as an `int` is above it on both sides. -/
def Plain (mem : Memory) (src dst : StructAll) (offset typeIndex num : Int) : Prop :=
  (offset = 0 → 0 ≤ typeIndex → typeIndex < src.ones.length → num ≠ 0) ∧
    ∀ offset', 0 < offset → IsTarget mem src dst offset typeIndex num offset' →
      Basic mem src typeIndex.toNat num offset ∧ Basic mem dst typeIndex.toNat num offset'

/-- The arguments that get_target_offset refuses. -/
def Refused (src : StructAll) (offset typeIndex num : Int) : Prop :=
  offset < 0 ∨ num < 0 ∨ typeIndex < 0 ∨ (src.ones.length : Int) ≤ typeIndex

theorem Target.valid (target : Target mem src dst t num offset offset') :
    t < src.ones.length ∧ 0 < num := by
  cases target with
  | elem here there below => exact ⟨getStructOne_lt here, by omega⟩
  | field here there below var var' visible behind target =>
    exact ⟨getStructOne_lt here, by omega⟩

include wf wf' in
theorem refused_translates {typeIndex : Int} (refused : Refused src offset typeIndex num) :
    Translates mem src dst offset typeIndex num ∧ Plain mem src dst offset typeIndex num := by
  have none : ∀ offset', ¬ IsTarget mem src dst offset typeIndex num offset' := by
    rintro offset' ⟨index, target⟩
    have nonneg := (target.nonneg wf wf').1
    obtain ⟨less, positive⟩ := target.valid
    rcases refused with negative | negative | negative | outside <;> omega
  refine ⟨⟨-1, if_pos refused, ?_, fun _ => rfl, by omega⟩, ?_, ?_⟩
  · intro offset' target
    exact absurd target (none offset')
  · intro zero index less
    rcases refused with negative | negative | negative | outside <;> omega
  · intro offset' _ target
    exact absurd target (none offset')

include wf wf' same in
theorem zero_translates_iff (less : t < src.ones.length) (count : 0 ≤ num) :
    Translates mem src dst 0 t num ↔ Plain mem src dst 0 t num := by
  have first : ∀ all : StructAll, t < all.ones.length → ∀ all',
      getTargetOffset mem all all' 0 t num = some 0 := by
    intro all less all'
    rw [getTargetOffset, if_neg (by omega), if_neg (Int.lt_irrefl 0)]
  constructor
  · rintro ⟨result, ran, _, none, _⟩
    rw [first src less] at ran
    constructor
    · rintro _ _ _ rfl
      have gone := none (by
        rintro offset' ⟨_, target⟩
        exact absurd target.valid.2 (Int.lt_irrefl 0))
      rw [gone] at ran
      contradiction
    · intro offset' positive
      exact absurd positive (Int.lt_irrefl 0)
  · rintro ⟨some', _⟩
    have positive : 0 < num := by
      have := some' rfl (by omega) (by omega)
      omega
    refine ⟨0, first src less dst, ?_, ?_, fun _ => first dst (same.length ▸ less) src⟩
    · rintro offset' ⟨_, target⟩
      exact (target.first wf rfl).1.symm
    · intro none
      obtain ⟨one, here⟩ := wf.present t less
      obtain ⟨one', there⟩ := wf'.present t (same.length ▸ less)
      have target := Target.elem (k := 0) here there positive
      rw [Nat.cast_zero, Int.zero_mul, Int.zero_mul] at target
      exact absurd ⟨by omega, target⟩ (none 0)

include wf wf' same in
theorem behind_translates_iff (less : t < src.ones.length) (count : 0 ≤ num)
    (positive : 0 < offset) :
    Translates mem src dst offset t num ↔ Plain mem src dst offset t num := by
  obtain ⟨one, here⟩ := wf.present t less
  obtain ⟨one', there⟩ := wf'.present t (same.length ▸ less)
  have size := wf.sizes t one here
  have size' := wf'.sizes t one' there
  have ran := getTargetOffset_eq here there size positive count
  have basics : one.vars = [] ↔ one'.vars = [] := by
    have shape := congrArg List.length (same.vars t one one' here there)
    simp only [List.length_map] at shape
    rw [← List.length_eq_zero_iff, ← List.length_eq_zero_iff, shape]
  constructor
  · rintro ⟨result, ran', exact', _, back⟩
    refine ⟨by omega, ?_⟩
    rintro offset' _ isTarget
    have nonneg := (isTarget.2.nonneg wf wf').2
    obtain rfl := exact' offset' isTarget
    have back := back nonneg
    -- neither this call nor the one back returns -1
    rw [ran] at ran'
    have short : ¬ i32 (one.size * num) ≤ offset := by
      intro long
      rw [if_pos long] at ran'
      have := Option.some.inj ran'
      omega
    have vars : one.vars = [] := by
      by_contra some'
      rw [if_neg short, if_neg (fun both => some' both.1)] at ran'
      have := Option.some.inj ran'
      omega
    obtain ⟨k, below, rfl, rfl⟩ := isTarget.2.basic here there vars
    have positive' : 0 < (k : Int) * one'.size := by
      have some' : (k : Int) ≠ 0 := by
        intro none
        rw [none, Int.zero_mul] at positive
        exact Int.lt_irrefl 0 positive
      exact Int.mul_pos (by omega) size'
    have short' : ¬ i32 (one'.size * num) ≤ k * one'.size := by
      intro long
      rw [getTargetOffset_eq there here size' positive' count, if_pos long] at back
      have := Option.some.inj back
      omega
    exact ⟨⟨one, here, vars, Int.not_le.mp short⟩,
      ⟨one', there, basics.mp vars, Int.not_le.mp short'⟩⟩
  · rintro ⟨_, plain⟩
    by_cases element : ∃ offset', IsTarget mem src dst offset t num offset'
    · obtain ⟨offset', isTarget⟩ := element
      obtain ⟨⟨_, here', vars, fits⟩, ⟨_, there', vars', fits'⟩⟩ :=
        plain offset' positive isTarget
      cases here.symm.trans here'
      cases there.symm.trans there'
      obtain ⟨k, below, rfl, rfl⟩ := isTarget.2.basic here there vars
      have some' : 0 < k := by
        rcases Nat.eq_zero_or_pos k with none | some'
        · rw [none, Nat.cast_zero, Int.zero_mul] at positive
          exact absurd positive (Int.lt_irrefl 0)
        · exact some'
      refine ⟨k * one'.size,
        getTargetOffset_basic here there size size' vars some' count fits fits', ?_, ?_, fun _ => getTargetOffset_basic there here size' size vars' some' count fits' fits⟩
      · intro offset' other
        obtain ⟨j, _, offset, rfl⟩ := other.2.basic here there vars
        have same := Int.eq_of_mul_eq_mul_right (Int.ne_of_gt size) offset
        rw [same]
      · intro none
        exact absurd isTarget (none _)
    · have none := not_exists.mp element
      refine ⟨-1, ?_, ?_, fun _ => rfl, by omega⟩
      · rw [ran]
        by_cases long : i32 (one.size * num) ≤ offset
        · rw [if_pos long]
        · rw [if_neg long, if_neg]
          rintro ⟨vars, whole⟩
          -- a whole number of elements below the end of the array
          obtain ⟨k, rfl⟩ := Int.dvd_of_emod_eq_zero whole
          have nonneg : 0 ≤ k := by
            by_contra negative
            have := Int.mul_nonpos_of_nonneg_of_nonpos size.le (by omega : k ≤ 0)
            omega
          obtain ⟨k, rfl⟩ := Int.eq_ofNat_of_zero_le nonneg
          have room := i32_le (by omega) (Int.mul_nonneg size.le count)
          have below : (k : Int) < num :=
            Int.lt_of_mul_lt_mul_left (Int.lt_of_lt_of_le (Int.not_le.mp long) room) size.le
          have target := Target.elem here there below
          rw [Int.mul_comm] at target
          exact none _ ⟨by omega, target⟩
      · intro offset' isTarget
        exact absurd isTarget (none offset')

include wf wf' same in
/-- get_target_offset translates an offset just when the element at it is plain. -/
theorem targetOffset_iff (typeIndex : Int) :
    Translates mem src dst offset typeIndex num ↔ Plain mem src dst offset typeIndex num := by
  by_cases refused : Refused src offset typeIndex num
  · obtain ⟨translates, plain⟩ := refused_translates wf wf' refused
    exact ⟨fun _ => plain, fun _ => translates⟩
  · obtain ⟨nonneg, rest⟩ := not_or.mp refused
    obtain ⟨count, rest⟩ := not_or.mp rest
    obtain ⟨index, less⟩ := not_or.mp rest
    obtain ⟨t, rfl⟩ := Int.eq_ofNat_of_zero_le (Int.not_lt.mp index)
    have less : t < src.ones.length := by omega
    rcases Int.lt_or_eq_of_le (Int.not_lt.mp nonneg) with positive | rfl
    · exact behind_translates_iff wf wf' same less (Int.not_lt.mp count) positive
    · exact zero_translates_iff wf wf' same less (Int.not_lt.mp count)

end

section example_tables

/-- A basic type of `w` bytes, and a struct of two of it. -/
def wordType (w : Int) : StructOne := ⟨w, []⟩

def pairType (w : Int) : StructOne := ⟨2 * w, [⟨0, w, w, 1, 0, 0⟩, ⟨0, w, w, 1, w, 0⟩]⟩

/-- The tables of a host with words of four bytes and of one with words of eight. -/
def pairMemory : Memory := fun p =>
  if p = 1040 then some (wordType 4)
  else if p = 1320 then some (pairType 4)
  else if p = 3040 then some (wordType 8)
  else if p = 3320 then some (pairType 8)
  else none

def pairTable (base : Nat) : StructAll := ⟨base, 1688, [base + 40, base + 320]⟩

theorem pairTable_wellFormed {w : Int} (word : getStructOne mem all 0 = some (wordType w))
    (pair : getStructOne mem all 1 = some (pairType w)) (two : all.ones.length = 2)
    (positive : 0 < w) : WellFormed mem all := by
  have types : ∀ t one, getStructOne mem all t = some one →
      t = 0 ∧ one = wordType w ∨ t = 1 ∧ one = pairType w := by
    intro t one here
    have less := getStructOne_lt here
    rcases (by omega : t = 0 ∨ t = 1) with rfl | rfl
    · exact .inl ⟨rfl, Option.some.inj (here.symm.trans word)⟩
    · exact .inr ⟨rfl, Option.some.inj (here.symm.trans pair)⟩
  refine ⟨?_, ?_, ?_, ?_, id, ?_⟩
  · intro t one here
    rcases types t one here with ⟨_, rfl⟩ | ⟨_, rfl⟩
    · exact positive
    · simp only [pairType]
      omega
  · intro t less
    rcases (by omega : t = 0 ∨ t = 1) with rfl | rfl
    · exact ⟨_, word⟩
    · exact ⟨_, pair⟩
  · intro t one here
    rcases types t one here with ⟨_, rfl⟩ | ⟨_, rfl⟩
    · exact List.Pairwise.nil
    · simp [pairType]
  · intro t one here v member
    rcases types t one here with ⟨_, rfl⟩ | ⟨_, rfl⟩
    · simp [wordType] at member
    · simp only [pairType, List.mem_cons, List.not_mem_nil, or_false] at member
      rcases member with rfl | rfl <;>
        exact ⟨by dsimp only; omega, Int.zero_le_ofNat 1, by simp only [pairType]; omega,
          wordType w, word, by simp only [wordType]; omega⟩
  · intro t one here v member
    rcases types t one here with ⟨rfl, rfl⟩ | ⟨rfl, rfl⟩
    · simp [wordType] at member
    · simp only [pairType, List.mem_cons, List.not_mem_nil, or_false] at member
      rcases member with rfl | rfl <;> exact Nat.zero_lt_one

theorem pairTables : WellFormed pairMemory (pairTable 1000) ∧
    WellFormed pairMemory (pairTable 3000) ∧
    SameShape pairMemory (pairTable 1000) (pairTable 3000) := by
  refine ⟨pairTable_wellFormed rfl rfl rfl (by decide : (0 : Int) < 4),
    pairTable_wellFormed rfl rfl rfl (by decide : (0 : Int) < 8), rfl, ?_⟩
  intro t one one' here there
  have less : t < 2 := getStructOne_lt here
  rcases (by omega : t = 0 ∨ t = 1) with rfl | rfl
  · cases here
    cases there
    rfl
  · cases here
    cases there
    rfl

/-- The third word of four. -/
theorem targetOffset_word : Translates pairMemory (pairTable 1000) (pairTable 3000) 8 0 4 := by
  obtain ⟨wf, wf', same⟩ := pairTables
  apply (targetOffset_iff wf wf' same 0).mpr
  refine ⟨by decide, ?_⟩
  rintro offset' _ ⟨_, target⟩
  have here : getStructOne pairMemory (pairTable 1000) 0 = some (wordType 4) := rfl
  have there : getStructOne pairMemory (pairTable 3000) 0 = some (wordType 8) := rfl
  obtain ⟨k, _, offset, rfl⟩ := target.basic here there rfl
  have two : (k : Int) = 2 := by
    simp only [wordType] at offset
    omega
  refine ⟨⟨wordType 4, here, rfl, by decide +kernel⟩, ⟨wordType 8, there, rfl, ?_⟩⟩
  rw [two]
  decide +kernel

/-- The second word of a pair is not found. -/
theorem targetOffset_field :
    (WellFormed pairMemory (pairTable 1000) ∧ WellFormed pairMemory (pairTable 3000) ∧
      SameShape pairMemory (pairTable 1000) (pairTable 3000)) ∧
    IsTarget pairMemory (pairTable 1000) (pairTable 3000) 4 1 1 8 ∧
    getTargetOffset pairMemory (pairTable 1000) (pairTable 3000) 4 1 1 = some (-1) := by
  refine ⟨pairTables, ⟨by decide, ?_⟩, by with_unfolding_all rfl⟩
  have here : getStructOne pairMemory (pairTable 1000) 0 = some (wordType 4) := rfl
  have there : getStructOne pairMemory (pairTable 3000) 0 = some (wordType 8) := rfl
  have here' : getStructOne pairMemory (pairTable 1000) 1 = some (pairType 4) := rfl
  have there' : getStructOne pairMemory (pairTable 3000) 1 = some (pairType 8) := rfl
  have word := Target.elem (k := 0) here there (by decide : (0 : Int) < 1)
  exact Target.field (k := 0) (j := 1) here' there' (by decide) rfl rfl (by decide) (by decide) word

end example_tables
end MoonInWater.Sync.StructTable
