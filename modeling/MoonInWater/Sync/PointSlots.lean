import MoonInWater.Sync.CopyEffect

/-! The pointers of a block and their slots: _get_block_copy numbers them one by one, and brings
each of them back to where it came from. -/
namespace MoonInWater.Sync.Copy
open Bytes Endian Loop VarType

section
variable {srcType dstType : StructAll} {order : ByteOrder} {src : Memory} {onlyPoints : Bool}
variable {call : Call} {one one' : StructOne} {fuel j : Nat} {rank rank' : Int → Nat}
variable {pCopy back : BlockCopy} {t n : Int} {fields : List (Int × Nat)}

/-- Tables of one shape have the same pointers. -/
theorem leaves_same (table : Table rank srcType) (table' : Table rank' dstType)
    (shape : SameShape srcType dstType) (leaves : Leaves Var.typeNum srcType fields n) :
    Leaves Var.typeNum dstType fields n := by
  induction leaves with
  | nil => exact .nil
  | basic here none' rest ih =>
    obtain ⟨one', there⟩ := shape.partner here
    have copyFunc := (shape.same _ _ one' here there).1
    have basic := (table.basic _ _ here).mp none'
    rw [← copyFunc] at basic
    have none'' := (table'.basic _ one' there).mpr basic
    have count := table.preset _ _ here none'
    rw [← copyFunc, ← table'.preset _ one' there none''] at count
    rw [count]
    exact .basic there none'' ih
  | struct here some' inner rest inner_ih ih =>
    obtain ⟨one', there⟩ := shape.partner here
    obtain ⟨copyFunc, fields⟩ := shape.same _ _ one' here there
    rw [← fields] at inner_ih
    refine .struct there ?_ inner_ih ih
    intro none'
    have basic := (table'.basic _ one' there).mp none'
    rw [copyFunc] at basic
    exact some' ((table.basic _ _ here).mpr basic)

theorem pointNum_same (table : Table rank srcType) (table' : Table rank' dstType)
    (shape : SameShape srcType dstType) (here : getStructOne srcType t = some one)
    (there : getStructOne dstType t = some one') : one'.pointNum = one.pointNum :=
  (table'.counted t one' there).pointNum.unique
    (leaves_same table table' shape (table.counted t one here).pointNum)

theorem pointAddr_same (table : Table rank srcType) (table' : Table rank' dstType)
    (shape : SameShape srcType dstType) (here : getStructOne srcType t = some one)
    (there : getStructOne dstType t = some one') {v w : Var} (var : one.vars[j]? = some v)
    (var' : one'.vars[j]? = some w) : w.pointAddr = v.pointAddr := by
  have leaves := leaves_same table table' shape ((table.counted t one here).pointAddr j v var)
  rw [← (shape.same t one one' here there).2] at leaves
  exact ((table'.counted t one' there).pointAddr j w var').unique leaves

/-- The way back makes the same calls, from the destination to the source. -/
theorem calls_back (table : Table rank srcType) (table' : Table rank' dstType)
    (shape : SameShape srcType dstType) (here : getStructOne srcType pCopy.index = some one)
    (index : back.index = pCopy.index) (num : back.num = pCopy.num)
    (points : back.points = pCopy.points)
    (member : call ∈ leafCalls srcType dstType false fuel pCopy) :
    ∃ call', (call.1, call') ∈ leafCalls dstType srcType false fuel back ∧
      call'.num = call.2.num ∧ call'.points = call.2.points ∧
      call'.dst + pCopy.src = call.2.src + back.dst := by
  induction fuel generalizing pCopy back one with
  | zero => cases member
  | succ fuel ih =>
    obtain ⟨one', there⟩ := shape.partner here
    have here' := index ▸ here
    have there' := index ▸ there
    have copyFunc' := (shape.same _ one one' here there).1
    cases copyFunc : one.copyFunc with
    | some f =>
      have all : ¬ (false = true ∧ one'.pointNum = 0) := fun both => Bool.noConfusion both.1
      have same := mem_basic here there copyFunc member
      subst same
      refine ⟨back, ?_, num, points, Nat.add_comm _ _⟩
      rw [leafCalls_basic there' here' all (copyFunc'.trans copyFunc)]
      exact List.mem_singleton.mpr rfl
    | none =>
      obtain ⟨i, below, j, v, w, var, var', member⟩ := mem_struct here there copyFunc member
      have field := List.mem_of_getElem? var
      have field' := List.mem_of_getElem? var'
      obtain ⟨u, same, typeNum, len⟩ := shape.field here there var
      cases var'.symm.trans same
      obtain ⟨inner, inner_here, _⟩ := table.valid _ one here v field
      have count := table.num here field
      have count' := table'.num there field'
      have inner_here' : getStructOne srcType (varCopy pCopy one one' i v w).index = some inner :=
        inner_here
      have index' : (varCopy back one' one i w v).index = (varCopy pCopy one one' i v w).index :=
        typeNum
      have num' : (varCopy back one' one i w v).num = (varCopy pCopy one one' i v w).num := by
        simp only [varCopy, count, count', len]
      have points' : (varCopy back one' one i w v).points =
          (varCopy pCopy one one' i v w).points := by
        simp only [varCopy, points, pointNum_same table table' shape here there,
          pointAddr_same table table' shape here there var var']
      obtain ⟨call', found, num', points', place⟩ := ih inner_here' index' num' points' member
      refine ⟨call', mem_struct_of there' here' (copyFunc'.trans copyFunc) (num ▸ below) var' var
        found, num', points', ?_⟩
      simp only [varCopy] at place
      omega

theorem FloatsFit.symm (floats : FloatsFit srcType dstType) (shape : SameShape srcType dstType) :
    FloatsFit dstType srcType := by
  intro t one one' here there float
  have copyFunc := (shape.same t one' one there here).1
  exact (floats t one' one there here (copyFunc.symm.trans float)).symm

/-- Out of the block and back: what stands at a pointer is what stood there. -/
theorem pointer_restored {src' dst' : Memory} {b : Buffers} {i k offset : Nat} {leaf : StructOne}
    (table : Table rank srcType) (table' : Table rank' dstType) (shape : SameShape srcType dstType)
    (host : Layout srcType) (here : getStructOne srcType pCopy.index = some one)
    (out : pCopy.flag = 0) (valid : 0 ≤ pCopy.points) (again : back.flag ≠ 0)
    (points : back.points = pCopy.points) (index : back.index = pCopy.index)
    (num : back.num = pCopy.num) (enough : rank pCopy.index < fuel) (below : i < pCopy.num)
    (pointer : LeafAt srcType pCopy.index offset t) (found : getStructOne srcType t = some leaf)
    (point : leaf.copyFunc = some .pointCopy) (inside : k < pointerLen) :
    ((leafCalls dstType srcType false fuel back).foldl (copyStep order src' dstType srcType)
      ⟨dst', ((leafCalls srcType dstType false fuel pCopy).foldl
        (copyStep order src srcType dstType) b).points⟩).dst
          (back.dst + i * one.size + offset + k) =
      src (pCopy.src + i * one.size + offset + k) := by
  obtain ⟨one', there⟩ := shape.partner here
  obtain ⟨f, call, leaf', j, member, found', copyFunc, _, less, place⟩ :=
    leaf_called table shape pointer here rfl below enough
  cases found.symm.trans found'
  cases copyFunc.symm.trans point
  have size : leaf.size = pointerLen := host.pointer t leaf found point
  obtain ⟨call', member', num', points', place'⟩ :=
    calls_back table table' shape here index num points member
  dsimp only at num' points' place'
  have len : pointerLen = 8 := rfl
  have near : j * pointerLen + k < call.num * pointerLen := by
    rw [len] at inside ⊢
    omega
  rw [size] at place
  obtain ⟨_, saved⟩ := points_after order src table shape here enough out valid member rfl near b
  have here' : getStructOne srcType back.index = some one := index ▸ here
  have there' : getStructOne dstType back.index = some one' := index ▸ there
  obtain ⟨one₂, one₃, fine⟩ := calls_leaf table' shape.symm there' member'
  have size' : one₃.size = pointerLen := by
    apply host.pointer _ one₃ fine.there
    rw [(shape.symm.same _ one₂ one₃ fine.here fine.there).1, fine.copyFunc]
  have near' : j * pointerLen + k < callLen srcType (.pointCopy, call') := by
    rw [callLen_eq fine, size']
    change _ < call'.num * pointerLen
    rw [num']
    exact near
  obtain ⟨mid, kept, after⟩ := dst_after order src' table' table shape.symm host there' here'
    member' near' ⟨dst', ((leafCalls srcType dstType false fuel pCopy).foldl
      (copyStep order src srcType dstType) b).points⟩
  rw [copyStep_dst_point fine again rfl (num' ▸ near), kept again] at after
  have slot : slotAddr (.pointCopy, call') = slotAddr (.pointCopy, call) := by
    rw [slotAddr, slotAddr, points']
  rw [slot, saved] at after
  have target : back.dst + i * one.size + offset + k = call'.dst + (j * pointerLen + k) := by omega
  have source : pCopy.src + i * one.size + offset + k = call.src + (j * pointerLen + k) := by omega
  rw [target, source]
  exact after

end

def pointerType : StructOne := ⟨"\\*", 8, 1, some .pointCopy, []⟩

def floatType (size : Nat) : StructOne := ⟨"\\bfloat\\b", size, 0, some .floatCopy, []⟩

/-- A type with a float and a pointer behind it; `size` is that of the float. -/
def pairType (size : Nat) : StructOne :=
  ⟨"\\bpair_s\\b", 16, 1, none,
    [⟨"float", 1, size, size, 1, 0, 0⟩, ⟨"void *", 0, 8, 8, 1, 8, 0⟩]⟩

def floatPair (size : Nat) : StructAll := [pointerType, floatType size, pairType size]

section
variable {size size' : Nat} {t : Int} {one : StructOne}

theorem floatPair_cases (here : getStructOne (floatPair size) t = some one) :
    t = 0 ∧ one = pointerType ∨ t = 1 ∧ one = floatType size ∨ t = 2 ∧ one = pairType size := by
  obtain ⟨valid, found⟩ := getStructOne_eq_some.mp here
  obtain ⟨k, rfl⟩ := Int.eq_ofNat_of_zero_le valid
  match k with
  | 0 => exact .inl ⟨rfl, (Option.some.inj found).symm⟩
  | 1 => exact .inr (.inl ⟨rfl, (Option.some.inj found).symm⟩)
  | 2 => exact .inr (.inr ⟨rfl, (Option.some.inj found).symm⟩)
  | k + 3 => cases found

theorem floatPair_table (positive : 0 < size) : Table Int.toNat (floatPair size) := by
  have pointer_here : getStructOne (floatPair size) 0 = some pointerType := rfl
  have float_here : getStructOne (floatPair size) 1 = some (floatType size) := rfl
  have pointer : TypeLeaves Var.typeNum (floatPair size) 0 1 := .of_basic pointer_here rfl
  have float : TypeLeaves Var.typeNum (floatPair size) 1 0 := .of_basic float_here rfl
  constructor
  · intro t one here v member
    rcases floatPair_cases here with ⟨rfl, rfl⟩ | ⟨rfl, rfl⟩ | ⟨rfl, rfl⟩
    · cases member
    · cases member
    · rcases List.mem_cons.mp member with rfl | member
      · exact ⟨_, float_here, (by decide : 1 < 2)⟩
      · rcases List.mem_singleton.mp member with rfl
        exact ⟨_, pointer_here, (by decide : 0 < 2)⟩
  · intro t one here
    rcases floatPair_cases here with ⟨rfl, rfl⟩ | ⟨rfl, rfl⟩ | ⟨rfl, rfl⟩ <;>
      simp [pointerType, floatType, pairType]
  · intro t one here none'
    rcases floatPair_cases here with ⟨rfl, rfl⟩ | ⟨rfl, rfl⟩ | ⟨rfl, rfl⟩
    · rfl
    · rfl
    · cases none'
  · intro t one here
    rcases floatPair_cases here with ⟨rfl, rfl⟩ | ⟨rfl, rfl⟩ | ⟨rfl, rfl⟩
    · exact ⟨pointer, fun j v found => by cases found⟩
    · exact ⟨float, fun j v found => by cases found⟩
    · have both := (float.array 1).append (pointer.array 1)
      refine ⟨TypeLeaves.of_fields here (List.cons_ne_nil _ _) both, fun j v found => ?_⟩
      match j with
      | 0 =>
        cases found
        exact .nil
      | 1 =>
        cases found
        exact float.array 1
      | j + 2 => cases found
  · intro t one here v member
    rcases floatPair_cases here with ⟨rfl, rfl⟩ | ⟨rfl, rfl⟩ | ⟨rfl, rfl⟩
    · cases member
    · cases member
    · rcases List.mem_cons.mp member with rfl | member
      · exact ⟨positive, (Nat.one_mul _).symm⟩
      · rcases List.mem_singleton.mp member with rfl
        exact ⟨by decide, rfl⟩

theorem floatPair_shape : SameShape (floatPair size) (floatPair size') := by
  constructor
  · rfl
  · intro t one one' here there
    rcases floatPair_cases here with ⟨rfl, rfl⟩ | ⟨rfl, rfl⟩ | ⟨rfl, rfl⟩ <;>
      rcases floatPair_cases there with ⟨same, rfl⟩ | ⟨same, rfl⟩ | ⟨same, rfl⟩ <;>
      first | exact ⟨rfl, rfl⟩ | cases same

end

/-- One element of the type with a float and a pointer, out of its block. -/
def pairCopy : BlockCopy := ⟨0, 0, 0, 0, 2, 1⟩

/-- Where the float has another size on the other side, the pointer behind it gets no slot. -/
theorem float_stops :
    Table Int.toNat (floatPair 4) ∧ Table Int.toNat (floatPair 8) ∧
      SameShape (floatPair 4) (floatPair 8) ∧
      ∀ order src fuel b b' calls ret, getBlockCopyOf
          (traced order src (floatPair 4) (floatPair 8)) (floatPair 4) (floatPair 8) false fuel
          pairCopy (b, []) = some ((b', calls), ret) →
        ret = -1 ∧ (pointers calls).map Prod.snd = [] ∧ slots 0 (1 * 1) = [0] := by
  refine ⟨floatPair_table (by decide), floatPair_table (by decide), floatPair_shape, ?_⟩
  intro order src fuel b b' calls ret ran
  match fuel with
  | 0 => cases ran
  | 1 => cases ran
  | fuel + 2 =>
    cases ran
    exact ⟨rfl, rfl, rfl⟩

/-- The slots of a block are handed out one by one, the same ones in both traversals, and the
pointers come back through them. -/
theorem slots_bijective {rank rank' : Int → Nat} {srcType dstType : StructAll}
    (table : Table rank srcType) (table' : Table rank' dstType)
    (shape : SameShape srcType dstType) (order : ByteOrder) (pCopy : BlockCopy) (pOne : StructOne)
    (here : getStructOne srcType pCopy.index = some pOne) :
    ∃ enough, ∀ fuel ≥ enough,
      (∀ src b, ∃ points b₁,
        getBlockCopyOf (traced order src srcType dstType) srcType dstType true fuel pCopy (b, []) =
          some ((b₁, points), 0) ∧
        (pointers points).map Prod.snd =
          slots pCopy.points (pCopy.num * pOne.pointNum.toNat) ∧
        (FloatsFit srcType dstType → ∃ all b₂,
          getBlockCopyOf (traced order src srcType dstType) srcType dstType false fuel pCopy
            (b, []) = some ((b₂, all), 0) ∧ pointers all = pointers points)) ∧
      (FloatsFit srcType dstType → Layout srcType → pCopy.flag = 0 → 0 ≤ pCopy.points →
        ∀ back : BlockCopy, back.flag ≠ 0 → back.points = pCopy.points →
        back.index = pCopy.index → back.num = pCopy.num → ∀ src src' b dst', ∃ b₁ b₂,
          _getBlockCopy order src srcType dstType false fuel pCopy b = some (b₁, 0) ∧
          _getBlockCopy order src' dstType srcType false fuel back ⟨dst', b₁.points⟩ =
            some (b₂, 0) ∧
          ∀ i < pCopy.num, ∀ offset t leaf, LeafAt srcType pCopy.index offset t →
            getStructOne srcType t = some leaf → leaf.copyFunc = some .pointCopy →
            read b₂.dst (back.dst + i * pOne.size + offset) pointerLen =
              read src (pCopy.src + i * pOne.size + offset) pointerLen) := by
  refine ⟨rank pCopy.index + rank' pCopy.index + 1, fun fuel many => ⟨?_, ?_⟩⟩
  · intro src b
    have enough : rank pCopy.index < fuel := by omega
    refine ⟨_, _, traced_run table shape (.inl rfl) here enough b,
      slots_of_calls table shape here enough, fun floats => ?_⟩
    exact ⟨_, _, traced_run table shape (.inr floats) here enough b,
      (pointers_modes table shape here enough).symm⟩
  · intro floats host out valid back again points index num src src' b dst'
    have enough : rank pCopy.index < fuel := by omega
    have enough' : rank' back.index < fuel := by
      rw [index]
      omega
    obtain ⟨one', there⟩ := shape.partner here
    have there' : getStructOne dstType back.index = some one' := index ▸ there
    refine ⟨_, _, plain_run table shape (.inr floats) here enough b,
      plain_run table' shape.symm (.inr (floats.symm shape)) there' enough' _, ?_⟩
    intro i below offset t leaf pointer found point
    rw [read_eq_map, read_eq_map]
    apply List.map_congr_left
    intro k member
    exact pointer_restored table table' shape host here out valid again points index num enough
      below pointer found point (List.mem_range.mp member)

theorem slots_bijective_pair : ∃ fuel all b,
    getBlockCopyOf (traced .big (fun _ => 7) (floatPair 4) (floatPair 4)) (floatPair 4)
      (floatPair 4) false fuel pairCopy (⟨fun _ => 0, fun _ => 0⟩, []) = some ((b, all), 0) ∧
    (pointers all).map Prod.snd = slots 0 (1 * 1) := by
  have same : FloatsFit (floatPair 4) (floatPair 4) := by
    intro t one one' here there _
    cases here.symm.trans there
    rfl
  have table : Table Int.toNat (floatPair 4) := floatPair_table (by decide)
  obtain ⟨fuel, runs⟩ := slots_bijective table table floatPair_shape .big pairCopy (pairType 4) rfl
  obtain ⟨points, _, _, handed, general⟩ :=
    (runs fuel (Nat.le_refl fuel)).1 (fun _ => 7) ⟨fun _ => 0, fun _ => 0⟩
  obtain ⟨all, b, ran, equal⟩ := general same
  exact ⟨fuel, all, b, ran, equal ▸ handed⟩

end MoonInWater.Sync.Copy
