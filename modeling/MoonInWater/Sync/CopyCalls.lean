import Mathlib.Data.List.Basic
import MoonInWater.Sync.BlockCopy
import MoonInWater.Sync.PointNum

/-! The calls of the copy functions that _get_block_copy makes, and the slots of the pointers. -/
namespace MoonInWater.Sync.Copy
open VarType Loop

/-- A call of a copy function. -/
abbrev Call := CopyFunc × BlockCopy

section
variable (srcType dstType : StructAll)

/-- The calls that _get_block_copy makes, in their order. -/
def leafCalls (onlyPoints : Bool) : Nat → BlockCopy → List Call
  | 0, _ => []
  | fuel + 1, pCopy =>
    ((getStructOne srcType pCopy.index).bind fun pOneSrc =>
      (getStructOne dstType pCopy.index).map fun pOneDst =>
        if onlyPoints ∧ pOneSrc.pointNum = 0 then []
        else
          match pOneSrc.copyFunc with
          | some f => [(f, pCopy)]
          | none =>
            (List.range pCopy.num).flatMap fun i =>
              (pOneSrc.vars.zip pOneDst.vars).flatMap fun vars =>
                leafCalls onlyPoints fuel (varCopy pCopy pOneSrc pOneDst i vars.1 vars.2)).getD []

end

/-- A struct table as complete_var_type is to leave it: no type contains itself, the types without
fields are those with a copy function, and the numbers of pointers are counted. -/
structure Table (rank : Int → Nat) (all : StructAll) : Prop where
  valid : ∀ t one, getStructOne all t = some one → ∀ v ∈ one.vars,
    ∃ inner, getStructOne all v.typeNum = some inner ∧ rank v.typeNum < rank t
  basic : ∀ t one, getStructOne all t = some one → (one.vars = [] ↔ one.copyFunc ≠ none)
  preset : ∀ t one, getStructOne all t = some one → one.vars = [] →
    one.pointNum = if one.copyFunc = some .pointCopy then 1 else 0
  counted : ∀ t one, getStructOne all t = some one → Counted all t one
  size : ∀ t one, getStructOne all t = some one → ∀ v ∈ one.vars,
    0 < v.arrayElemSize ∧ v.size = v.len * v.arrayElemSize

/-- Two tables with the same types of fields and array lengths, and the same basic types. -/
structure SameShape (srcType dstType : StructAll) : Prop where
  length : srcType.length = dstType.length
  same : ∀ t one one', getStructOne srcType t = some one → getStructOne dstType t = some one' →
    one'.copyFunc = one.copyFunc ∧ one'.fields Var.typeNum = one.fields Var.typeNum

section
variable {srcType dstType : StructAll} {onlyPoints : Bool} {fuel i j : Nat} {pCopy : BlockCopy}
variable {one one' : StructOne} {rank : Int → Nat} {t m n : Int} {f : CopyFunc}

theorem SameShape.symm (shape : SameShape srcType dstType) : SameShape dstType srcType := by
  constructor
  · exact shape.length.symm
  · intro t one one' here there
    obtain ⟨copyFunc, fields⟩ := shape.same t one' one there here
    exact ⟨copyFunc.symm, fields.symm⟩

theorem SameShape.partner (shape : SameShape srcType dstType)
    (here : getStructOne srcType t = some one) : ∃ one', getStructOne dstType t = some one' := by
  obtain ⟨valid, found⟩ := getStructOne_eq_some.mp here
  have inside : t.toNat < dstType.length :=
    shape.length ▸ (List.getElem?_eq_some_iff.mp found).1
  exact ⟨_, getStructOne_eq_some.mpr ⟨valid, List.getElem?_eq_getElem inside⟩⟩

theorem SameShape.vars_length (shape : SameShape srcType dstType)
    (here : getStructOne srcType t = some one) (there : getStructOne dstType t = some one') :
    (one.vars.zip one'.vars).length = one.vars.length := by
  have length := congrArg List.length (shape.same t one one' here there).2
  simp only [StructOne.fields, List.length_map] at length
  rw [List.length_zip, length, Nat.min_self]

/-- A turn of _get_block_copy on a type of both tables. -/
theorem leafCalls_succ (here : getStructOne srcType pCopy.index = some one)
    (there : getStructOne dstType pCopy.index = some one') :
    leafCalls srcType dstType onlyPoints (fuel + 1) pCopy =
      if onlyPoints ∧ one.pointNum = 0 then []
      else
        match one.copyFunc with
        | some f => [(f, pCopy)]
        | none =>
          (List.range pCopy.num).flatMap fun i => (one.vars.zip one'.vars).flatMap fun vars =>
            leafCalls srcType dstType onlyPoints fuel
              (varCopy pCopy one one' i vars.1 vars.2) := by
  rw [leafCalls, here, Option.bind_some, there, Option.map_some, Option.getD_some]

theorem leafCalls_pruned (here : getStructOne srcType pCopy.index = some one)
    (there : getStructOne dstType pCopy.index = some one')
    (none' : onlyPoints = true ∧ one.pointNum = 0) :
    leafCalls srcType dstType onlyPoints (fuel + 1) pCopy = [] := by
  rw [leafCalls_succ here there, if_pos none']

theorem leafCalls_basic (here : getStructOne srcType pCopy.index = some one)
    (there : getStructOne dstType pCopy.index = some one')
    (some' : ¬ (onlyPoints = true ∧ one.pointNum = 0)) (basic : one.copyFunc = some f) :
    leafCalls srcType dstType onlyPoints (fuel + 1) pCopy = [(f, pCopy)] := by
  rw [leafCalls_succ here there, if_neg some', basic]

theorem leafCalls_struct (here : getStructOne srcType pCopy.index = some one)
    (there : getStructOne dstType pCopy.index = some one')
    (some' : ¬ (onlyPoints = true ∧ one.pointNum = 0)) (struct : one.copyFunc = none) :
    leafCalls srcType dstType onlyPoints (fuel + 1) pCopy =
      (List.range pCopy.num).flatMap fun i => (one.vars.zip one'.vars).flatMap fun vars =>
        leafCalls srcType dstType onlyPoints fuel (varCopy pCopy one one' i vars.1 vars.2) := by
  rw [leafCalls_succ here there, if_neg some', struct]

/-- What _get_block_copy does is to make these calls. -/
theorem run_eq_calls {σ : Type} {copyFunc : CopyFunc → BlockCopy → σ → Option (σ × Int)}
    (ret : ∀ f pCopy s r, copyFunc f pCopy s = some r → 0 ≤ r.2 → r.2 = 0)
    (table : Table rank srcType) (shape : SameShape srcType dstType)
    (here : getStructOne srcType pCopy.index = some one) (enough : rank pCopy.index < fuel)
    (s : σ) : getBlockCopyOf copyFunc srcType dstType onlyPoints fuel pCopy s =
      each (fun call => copyFunc call.1 call.2) (leafCalls srcType dstType onlyPoints fuel pCopy)
        s := by
  induction fuel generalizing pCopy one s with
  | zero => exact absurd enough (Nat.not_lt_zero _)
  | succ fuel ih =>
    obtain ⟨one', there⟩ := shape.partner here
    rw [getBlockCopyOf, here, Option.bind_some, there, Option.bind_some]
    by_cases none' : onlyPoints = true ∧ one.pointNum = 0
    · rw [if_pos none', leafCalls_pruned here there none']
      rfl
    · rw [if_neg none']
      cases basic : one.copyFunc with
      | some f =>
        rw [leafCalls_basic here there none' basic]
        exact (each_singleton (ret f pCopy s)).symm
      | none =>
        rw [leafCalls_struct here there none' basic, each_flatMap]
        apply each_congr
        intro i _ s
        rw [each_flatMap, ← shape.vars_length here there]
        apply each_range
        intro j vars found s
        obtain ⟨v, w⟩ := vars
        obtain ⟨var, var'⟩ := List.getElem?_zip_eq_some.mp found
        have member := List.mem_of_getElem? var
        obtain ⟨inner, inner_here, below⟩ := table.valid _ one here v member
        have positive := (table.size _ one here v member).1
        have enough' : rank v.typeNum < fuel := by omega
        dsimp only
        rw [var, Option.bind_some, var', Option.bind_some, if_neg (Nat.ne_of_gt positive)]
        exact ih inner_here enough' s

end

/-- The pointers that a call copies: their arrays on both sides, their indexes in these, and their
slots. -/
def pointersOf (call : Call) : List ((Nat × Nat × Nat) × Int) :=
  if call.1 = .pointCopy then
    (List.range call.2.num).map fun k => ((call.2.src, call.2.dst, k), call.2.points + k)
  else []

def pointers (calls : List Call) : List ((Nat × Nat × Nat) × Int) := calls.flatMap pointersOf

/-- The slots from `start` on. -/
def slots (start : Int) (n : Nat) : List Int := (List.range n).map fun (k : Nat) => start + k

section
variable {srcType dstType : StructAll} {onlyPoints : Bool} {fuel i j k : Nat} {pCopy : BlockCopy}
variable {one one' : StructOne} {rank : Int → Nat} {t n start : Int} {f : CopyFunc}
variable {fields : List (Int × Nat)}

theorem slots_add (m k : Nat) : slots start (m + k) = slots start m ++ slots (start + m) k := by
  rw [slots, List.range_add, List.map_append, List.map_map]
  congr 1
  apply List.map_congr_left
  intro j _
  change start + ((m + j : Nat) : Int) = start + m + j
  omega

theorem slots_mul (m k : Nat) :
    (List.range m).flatMap (fun (i : Nat) => slots (start + i * (k : Int)) k) =
      slots start (m * k) := by
  induction m with
  | zero => rw [Nat.zero_mul]; rfl
  | succ m ih =>
    rw [List.range_succ, List.flatMap_append, ih, List.flatMap_singleton, Nat.succ_mul, slots_add,
      Int.natCast_mul]

theorem Leaves.nonneg (table : Table rank srcType)
    (leaves : Leaves Var.typeNum srcType fields n) : 0 ≤ n := by
  induction leaves with
  | nil => exact Int.le_refl 0
  | basic here none' rest ih =>
    apply Int.add_nonneg _ ih
    rw [table.preset _ _ here none']
    split
    · exact Int.mul_nonneg (Int.natCast_nonneg _) (by decide)
    · exact Int.mul_nonneg (Int.natCast_nonneg _) (by decide)
  | struct here some' inner rest inner_ih ih =>
    exact Int.add_nonneg (Int.mul_nonneg (Int.natCast_nonneg _) inner_ih) ih

/-- The slots of the fields of an element follow each other, as get_point_num has counted them. -/
theorem fields_slots (table : Table rank srcType) (shape : SameShape srcType dstType)
    (here : getStructOne srcType pCopy.index = some one)
    (there : getStructOne dstType pCopy.index = some one')
    (inner_slots : ∀ pCopy : BlockCopy, ∀ inner, getStructOne srcType pCopy.index = some inner →
      rank pCopy.index < fuel →
      (pointers (leafCalls srcType dstType onlyPoints fuel pCopy)).map Prod.snd =
        slots pCopy.points (pCopy.num * inner.pointNum.toNat))
    (enough : rank pCopy.index < fuel + 1) (inside : j ≤ one.vars.length) :
    ∃ n : Nat, Leaves Var.typeNum srcType ((one.fields Var.typeNum).take j) n ∧
      (pointers (((one.vars.zip one'.vars).take j).flatMap fun vars =>
        leafCalls srcType dstType onlyPoints fuel
          (varCopy pCopy one one' i vars.1 vars.2))).map Prod.snd =
        slots (pCopy.points + i * one.pointNum) n := by
  induction j with
  | zero => exact ⟨0, .nil, rfl⟩
  | succ j ih =>
    obtain ⟨n, leaves, before⟩ := ih (Nat.le_of_succ_le inside)
    have length := shape.vars_length here there
    have var := List.getElem?_eq_getElem inside
    generalize one.vars[j] = v at var
    obtain ⟨vars, both⟩ : ∃ vars, (one.vars.zip one'.vars)[j]? = some vars :=
      ⟨_, List.getElem?_eq_getElem (by omega)⟩
    obtain ⟨same, var'⟩ := List.getElem?_zip_eq_some.mp both
    cases var.symm.trans same
    have member := List.mem_of_getElem? var
    obtain ⟨inner, inner_here, below⟩ := table.valid _ one here vars.1 member
    obtain ⟨positive, size⟩ := table.size _ one here vars.1 member
    have own := inner_slots (varCopy pCopy one one' i vars.1 vars.2) inner inner_here
      (by change rank vars.1.typeNum < fuel; omega)
    have counted := table.counted _ inner inner_here
    have nonneg : 0 ≤ inner.pointNum := Leaves.nonneg table counted.pointNum
    have addr : vars.1.pointAddr = n :=
      ((table.counted _ one here).pointAddr j vars.1 var).unique leaves
    have num : vars.1.size / vars.1.arrayElemSize = vars.1.len := by
      rw [size, Nat.mul_div_cancel _ positive]
    refine ⟨n + vars.1.len * inner.pointNum.toNat, ?_, ?_⟩
    · have last : (one.fields Var.typeNum).take (j + 1) =
          (one.fields Var.typeNum).take j ++ [(vars.1.typeNum, vars.1.len)] := by
        rw [List.take_add_one, StructOne.fields, List.getElem?_map, var]
        rfl
      have array := TypeLeaves.array counted.pointNum vars.1.len
      rw [last, Int.natCast_add, Int.natCast_mul, Int.toNat_of_nonneg nonneg]
      exact leaves.append array
    · rw [List.take_add_one, both, List.flatMap_append, pointers, List.flatMap_append,
        List.map_append]
      rw [pointers] at before
      rw [before, Option.toList_some, List.flatMap_singleton, slots_add]
      congr 1
      rw [pointers] at own
      rw [own]
      simp only [varCopy, addr, num]

/-- The slots that _get_block_copy hands out are those of its block, in their order. -/
theorem slots_of_calls (table : Table rank srcType) (shape : SameShape srcType dstType)
    (here : getStructOne srcType pCopy.index = some one) (enough : rank pCopy.index < fuel) :
    (pointers (leafCalls srcType dstType onlyPoints fuel pCopy)).map Prod.snd =
      slots pCopy.points (pCopy.num * one.pointNum.toNat) := by
  induction fuel generalizing pCopy one with
  | zero => exact absurd enough (Nat.not_lt_zero _)
  | succ fuel ih =>
    obtain ⟨one', there⟩ := shape.partner here
    by_cases none' : onlyPoints = true ∧ one.pointNum = 0
    · rw [leafCalls_pruned here there none', none'.2]
      rfl
    · cases copyFunc : one.copyFunc with
      | some f =>
        have basic : one.vars = [] := (table.basic _ one here).mpr (by rw [copyFunc]; simp)
        have count := table.preset _ one here basic
        rw [leafCalls_basic here there none' copyFunc, pointers, List.flatMap_singleton, pointersOf]
        by_cases point : f = .pointCopy
        · rw [if_pos point, count, copyFunc, if_pos (by rw [point]), List.map_map]
          rw [Int.toNat_one, Nat.mul_one]
          rfl
        · rw [if_neg point, count, copyFunc, if_neg (fun same => point (Option.some.inj same))]
          rfl
      | none =>
        have struct : one.vars ≠ [] := fun basic => (table.basic _ one here).mp basic copyFunc
        have whole := (table.counted _ one here).pointNum
        have nonneg : 0 ≤ one.pointNum := Leaves.nonneg table whole
        have elems : ∀ i, (pointers ((one.vars.zip one'.vars).flatMap fun vars =>
            leafCalls srcType dstType onlyPoints fuel
              (varCopy pCopy one one' i vars.1 vars.2))).map Prod.snd =
            slots (pCopy.points + i * one.pointNum) one.pointNum.toNat := by
          intro i
          obtain ⟨n, leaves, here'⟩ := fields_slots (i := i) table shape here there
            (fun pCopy inner inner_here less => ih inner_here less) enough (Nat.le_refl _)
          have length := shape.vars_length here there
          rw [← length, List.take_length] at here'
          have fields : (one.fields Var.typeNum).length = one.vars.length := List.length_map ..
          rw [← fields, List.take_length] at leaves
          have same := whole.unique (TypeLeaves.of_fields here struct leaves)
          rw [here', same, Int.toNat_natCast]
        rw [leafCalls_struct here there none' copyFunc, pointers, List.flatMap_assoc,
          List.map_flatMap, ← slots_mul, Int.toNat_of_nonneg nonneg]
        exact List.flatMap_congr fun i _ => elems i

/-- The pointers have the same slots whether only they are copied or not. -/
theorem pointers_modes (table : Table rank srcType) (shape : SameShape srcType dstType)
    (here : getStructOne srcType pCopy.index = some one) (enough : rank pCopy.index < fuel) :
    pointers (leafCalls srcType dstType true fuel pCopy) =
      pointers (leafCalls srcType dstType false fuel pCopy) := by
  induction fuel generalizing pCopy one with
  | zero => rfl
  | succ fuel ih =>
    obtain ⟨one', there⟩ := shape.partner here
    have all : ¬ (false = true ∧ one.pointNum = 0) := fun both => Bool.noConfusion both.1
    by_cases none' : true = true ∧ one.pointNum = 0
    · have empty : (pointers (leafCalls srcType dstType false (fuel + 1) pCopy)).map Prod.snd = _ :=
        slots_of_calls table shape here enough
      have length := congrArg List.length empty
      rw [none'.2, Int.toNat_zero, Nat.mul_zero, List.length_map] at length
      rw [leafCalls_pruned here there none']
      exact (List.eq_nil_of_length_eq_zero length).symm
    · cases copyFunc : one.copyFunc with
      | some f =>
        rw [leafCalls_basic here there none' copyFunc, leafCalls_basic here there all copyFunc]
      | none =>
        rw [leafCalls_struct here there none' copyFunc, leafCalls_struct here there all copyFunc,
          pointers, pointers, List.flatMap_assoc, List.flatMap_assoc]
        apply List.flatMap_congr
        intro i _
        rw [List.flatMap_assoc, List.flatMap_assoc]
        apply List.flatMap_congr
        intro vars member
        obtain ⟨j, found⟩ := List.mem_iff_getElem?.mp member
        have var := List.mem_of_getElem? (List.getElem?_zip_eq_some.mp found).1
        obtain ⟨inner, inner_here, below⟩ := table.valid _ one here vars.1 var
        have inner_here' : getStructOne srcType (varCopy pCopy one one' i vars.1 vars.2).index =
            some inner := inner_here
        have enough' : rank vars.1.typeNum < fuel := by omega
        exact ih inner_here' enough'

end
end MoonInWater.Sync.Copy
