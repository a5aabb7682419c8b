import MoonInWater.Sync.CopyCalls
import MoonInWater.Sync.IntCopy

/-! Where the calls of the copy functions write, and that the leaves of a layout are those that are
copied. -/
namespace MoonInWater.Sync.Copy
open Bytes Endian Loop VarType

/-- The layout of a table of the host: the fields of a type follow each other inside it, each with
room for its elements, and a pointer is one of the host. -/
structure Layout (all : StructAll) : Prop where
  elem : ∀ t one, getStructOne all t = some one → ∀ v ∈ one.vars,
    ∀ inner, getStructOne all v.typeNum = some inner → v.arrayElemSize = inner.size
  order : ∀ t one, getStructOne all t = some one →
    one.vars.Pairwise fun v w => v.addr + v.size ≤ w.addr
  inside : ∀ t one, getStructOne all t = some one → ∀ v ∈ one.vars, v.addr + v.size ≤ one.size
  pointer : ∀ t one, getStructOne all t = some one → one.copyFunc = some .pointCopy →
    one.size = pointerLen

/-- A leaf of the basic type `b` at an offset in an element of a type. -/
inductive LeafAt (all : StructAll) : Int → Nat → Int → Prop
  | basic {t : Int} {one : StructOne} (here : getStructOne all t = some one)
      (none' : one.vars = []) : LeafAt all t 0 t
  | field {t : Int} {one inner : StructOne} {v : Var} {k offset : Nat} {b : Int}
      (here : getStructOne all t = some one) (member : v ∈ one.vars) (inside : k < v.len)
      (there : getStructOne all v.typeNum = some inner)
      (leaf : LeafAt all v.typeNum offset b) : LeafAt all t (v.addr + k * inner.size + offset) b

/-- A call for a basic type of both tables. -/
structure Leaf (srcType dstType : StructAll) (flag : Int) (call : Call) (one one' : StructOne) :
    Prop where
  here : getStructOne srcType call.2.index = some one
  there : getStructOne dstType call.2.index = some one'
  copyFunc : one.copyFunc = some call.1
  flag : call.2.flag = flag

section
variable {srcType dstType : StructAll} {onlyPoints : Bool} {fuel i j k lo mid hi : Nat}
variable {pCopy : BlockCopy} {one one' : StructOne} {rank rank' : Int → Nat} {t b : Int}
variable {offset : Nat} {call : Call} {calls calls' : List Call}

/-- A call of a type with fields is one of a field of one of its elements. -/
theorem mem_struct (here : getStructOne srcType pCopy.index = some one)
    (there : getStructOne dstType pCopy.index = some one') (struct : one.copyFunc = none)
    (member : call ∈ leafCalls srcType dstType onlyPoints (fuel + 1) pCopy) :
    ∃ i < pCopy.num, ∃ (j : Nat) (v w : Var), one.vars[j]? = some v ∧ one'.vars[j]? = some w ∧
      call ∈ leafCalls srcType dstType onlyPoints fuel (varCopy pCopy one one' i v w) := by
  by_cases none' : onlyPoints = true ∧ one.pointNum = 0
  · rw [leafCalls_pruned here there none'] at member
    cases member
  · rw [leafCalls_struct here there none' struct] at member
    obtain ⟨i, below, member⟩ := List.mem_flatMap.mp member
    obtain ⟨vars, found, member⟩ := List.mem_flatMap.mp member
    obtain ⟨j, found⟩ := List.mem_iff_getElem?.mp found
    obtain ⟨var, var'⟩ := List.getElem?_zip_eq_some.mp found
    exact ⟨i, List.mem_range.mp below, j, vars.1, vars.2, var, var', member⟩

theorem mem_basic {f : CopyFunc} (here : getStructOne srcType pCopy.index = some one)
    (there : getStructOne dstType pCopy.index = some one') (basic : one.copyFunc = some f)
    (member : call ∈ leafCalls srcType dstType onlyPoints (fuel + 1) pCopy) :
    call = (f, pCopy) := by
  by_cases none' : onlyPoints = true ∧ one.pointNum = 0
  · rw [leafCalls_pruned here there none'] at member
    cases member
  · rw [leafCalls_basic here there none' basic] at member
    exact List.mem_singleton.mp member

theorem mem_struct_of (here : getStructOne srcType pCopy.index = some one)
    (there : getStructOne dstType pCopy.index = some one') (struct : one.copyFunc = none)
    (below : i < pCopy.num) {v w : Var} (var : one.vars[j]? = some v)
    (var' : one'.vars[j]? = some w)
    (member : call ∈ leafCalls srcType dstType false fuel (varCopy pCopy one one' i v w)) :
    call ∈ leafCalls srcType dstType false (fuel + 1) pCopy := by
  have all : ¬ (false = true ∧ one.pointNum = 0) := fun both => Bool.noConfusion both.1
  rw [leafCalls_struct here there all struct]
  apply List.mem_flatMap.mpr
  refine ⟨i, List.mem_range.mpr below, List.mem_flatMap.mpr ⟨(v, w), ?_, member⟩⟩
  exact List.mem_iff_getElem?.mpr ⟨j, List.getElem?_zip_eq_some.mpr ⟨var, var'⟩⟩

theorem calls_leaf (table : Table rank srcType) (shape : SameShape srcType dstType)
    (here : getStructOne srcType pCopy.index = some one)
    (member : call ∈ leafCalls srcType dstType onlyPoints fuel pCopy) :
    ∃ leaf leaf', Leaf srcType dstType pCopy.flag call leaf leaf' := by
  induction fuel generalizing pCopy one with
  | zero => cases member
  | succ fuel ih =>
    obtain ⟨one', there⟩ := shape.partner here
    cases copyFunc : one.copyFunc with
    | some f =>
      have same := mem_basic here there copyFunc member
      subst same
      exact ⟨one, one', here, there, copyFunc, rfl⟩
    | none =>
      obtain ⟨i, _, j, v, w, var, _, member⟩ := mem_struct here there copyFunc member
      obtain ⟨inner, inner_here, _⟩ := table.valid _ one here v (List.mem_of_getElem? var)
      have inner_here' : getStructOne srcType (varCopy pCopy one one' i v w).index = some inner :=
        inner_here
      have leaf := ih inner_here' member
      exact leaf

/-- The fields of the two tables at an index. -/
theorem SameShape.field (shape : SameShape srcType dstType)
    (here : getStructOne srcType t = some one) (there : getStructOne dstType t = some one')
    {v : Var} (var : one.vars[j]? = some v) :
    ∃ w, one'.vars[j]? = some w ∧ w.typeNum = v.typeNum ∧ w.len = v.len := by
  have fields := (shape.same t one one' here there).2
  have both := congrArg (fun fields => fields[j]?) fields
  simp only [StructOne.fields, List.getElem?_map, var, Option.map_some] at both
  obtain ⟨w, var', same⟩ := Option.map_eq_some_iff.mp both
  obtain ⟨typeNum, len⟩ := Prod.mk.inj same
  exact ⟨w, var', typeNum, len⟩

theorem Table.num {v : Var} (table : Table rank srcType)
    (here : getStructOne srcType t = some one) (member : v ∈ one.vars) :
    v.size / v.arrayElemSize = v.len := by
  obtain ⟨positive, size⟩ := table.size t one here v member
  rw [size, Nat.mul_div_cancel _ positive]

/-- Each leaf of the block is copied by one of the calls. -/
theorem leaf_called (table : Table rank srcType) (shape : SameShape srcType dstType)
    (leaf : LeafAt srcType t offset b) (here : getStructOne srcType t = some one)
    (index : pCopy.index = t) (below : i < pCopy.num) (enough : rank t < fuel) :
    ∃ f call leafOne k, (f, call) ∈ leafCalls srcType dstType false fuel pCopy ∧
      getStructOne srcType b = some leafOne ∧ leafOne.copyFunc = some f ∧ call.index = b ∧
      k < call.num ∧ call.src + k * leafOne.size = pCopy.src + i * one.size + offset := by
  induction leaf generalizing pCopy i fuel one with
  | basic here' none' =>
    have same := Option.some.inj (here.symm.trans here')
    subst same index
    obtain ⟨one', there⟩ := shape.partner here
    have basic := (table.basic _ one here).mp none'
    obtain ⟨f, copyFunc⟩ := Option.ne_none_iff_exists'.mp basic
    obtain ⟨fuel, rfl⟩ := Nat.exists_eq_succ_of_ne_zero (Nat.ne_of_gt (Nat.zero_lt_of_lt enough))
    have all : ¬ (false = true ∧ one.pointNum = 0) := fun both => Bool.noConfusion both.1
    refine ⟨f, pCopy, one, i, ?_, here, copyFunc, rfl, below, rfl⟩
    rw [leafCalls_basic here there all copyFunc]
    exact List.mem_singleton.mpr rfl
  | @field t one₁ inner v k offset b here' member inside inner_here leaf ih =>
    have same := Option.some.inj (here.symm.trans here')
    subst same index
    obtain ⟨one', there⟩ := shape.partner here
    obtain ⟨fuel, rfl⟩ := Nat.exists_eq_succ_of_ne_zero (Nat.ne_of_gt (Nat.zero_lt_of_lt enough))
    have struct : one.copyFunc = none := by
      by_contra basic
      rw [(table.basic _ one here).mpr basic] at member
      cases member
    obtain ⟨_, _, lower⟩ := table.valid _ one here v member
    obtain ⟨j, var⟩ := List.mem_iff_getElem?.mp member
    obtain ⟨w, var', _⟩ := shape.field here there var
    have num := table.num here member
    have index' : (varCopy pCopy one one' i v w).index = v.typeNum := rfl
    have below' : k < (varCopy pCopy one one' i v w).num := by
      change k < v.size / v.arrayElemSize
      omega
    obtain ⟨f, call, leafOne, k', called, found, copyFunc, index, less, place⟩ :=
      ih inner_here index' below' (by omega : rank v.typeNum < fuel)
    refine ⟨f, call, leafOne, k', mem_struct_of here there struct below var var' called, found,
      copyFunc, index, less, ?_⟩
    rw [place]
    simp only [varCopy]
    omega

end

/-- The bytes of the destination that a call writes. -/
def callLen (dstType : StructAll) (call : Call) : Nat :=
  call.2.num * ((getStructOne dstType call.2.index).map StructOne.size).getD 0

/-- The calls write one behind the other, between `lo` and `hi`. -/
def Spans (dstType : StructAll) (hi : Nat) : List Call → Nat → Prop
  | [], lo => lo ≤ hi
  | call :: calls, lo =>
    lo ≤ call.2.dst ∧ Spans dstType hi calls (call.2.dst + callLen dstType call)

section
variable {srcType dstType : StructAll} {onlyPoints : Bool} {fuel i j k lo lo' mid hi : Nat}
variable {pCopy : BlockCopy} {one one' : StructOne} {rank rank' : Int → Nat}
variable {call : Call} {calls calls' : List Call}

theorem Spans.weaken (spans : Spans dstType hi calls lo) (less : lo' ≤ lo) :
    Spans dstType hi calls lo' := by
  cases calls with
  | nil => exact Nat.le_trans less spans
  | cons call calls => exact ⟨Nat.le_trans less spans.1, spans.2⟩

theorem Spans.append (front : Spans dstType mid calls lo) (rear : Spans dstType hi calls' mid) :
    Spans dstType hi (calls ++ calls') lo := by
  induction calls generalizing lo with
  | nil => exact rear.weaken front
  | cons call calls ih => exact ⟨front.1, ih front.2⟩

theorem Spans.le (spans : Spans dstType hi calls lo) : lo ≤ hi := by
  induction calls generalizing lo with
  | nil => exact spans
  | cons call calls ih =>
    have rest := ih spans.2
    have first := spans.1
    omega

/-- Lists of calls between places that follow each other. -/
theorem Spans.flatMap {β : Type} {f : β → List Call} {bs : List β} (start stop : β → Nat)
    (order : bs.Pairwise fun x y => stop x ≤ start y)
    (each : ∀ x ∈ bs, Spans dstType (stop x) (f x) (start x))
    (bounds : ∀ x ∈ bs, lo ≤ start x ∧ stop x ≤ hi) (fits : lo ≤ hi) :
    Spans dstType hi (bs.flatMap f) lo := by
  induction bs generalizing lo with
  | nil => exact fits
  | cons x bs ih =>
    obtain ⟨before, order⟩ := List.pairwise_cons.mp order
    obtain ⟨low, high⟩ := bounds x List.mem_cons_self
    rw [List.flatMap_cons]
    apply ((each x List.mem_cons_self).weaken low).append
    apply ih order
    · exact fun y member => each y (List.mem_cons_of_mem _ member)
    · exact fun y member => ⟨before y member, (bounds y (List.mem_cons_of_mem _ member)).2⟩
    · exact high

/-- The other calls write before a call or behind it. -/
theorem Spans.split (spans : Spans dstType hi (calls ++ call :: calls') lo) :
    (∀ x ∈ calls, x.2.dst + callLen dstType x ≤ call.2.dst) ∧
      ∀ x ∈ calls', call.2.dst + callLen dstType call ≤ x.2.dst := by
  induction calls generalizing lo with
  | nil =>
    refine ⟨fun x none' => (List.not_mem_nil none').elim, ?_⟩
    have rest := spans.2
    clear spans
    generalize call.2.dst + callLen dstType call = start at rest
    induction calls' generalizing start with
    | nil => exact fun x none' => (List.not_mem_nil none').elim
    | cons y calls' ih =>
      intro x member
      rcases List.mem_cons.mp member with rfl | later
      · exact rest.1
      · exact ih start (rest.2.weaken (Nat.le_trans rest.1 (Nat.le_add_right _ _))) x later
  | cons y calls ih =>
    obtain ⟨front, rear⟩ := ih spans.2
    refine ⟨fun x member => ?_, rear⟩
    rcases List.mem_cons.mp member with rfl | later
    · have rest := spans.2
      have bound : ∀ (calls : List Call) start, Spans dstType hi (calls ++ call :: calls') start →
          start ≤ call.2.dst := by
        intro calls
        induction calls with
        | nil => exact fun start spans => spans.1
        | cons z calls ih =>
          intro start spans
          exact Nat.le_trans spans.1 (Nat.le_trans (Nat.le_add_right _ _) (ih _ spans.2))
      exact bound calls _ rest
    · exact front x later

/-- The calls of a block write one behind the other inside of its destination. -/
theorem calls_span (table : Table rank srcType) (table' : Table rank' dstType)
    (shape : SameShape srcType dstType) (layout : Layout dstType)
    (here : getStructOne srcType pCopy.index = some one)
    (there : getStructOne dstType pCopy.index = some one') :
    Spans dstType (pCopy.dst + pCopy.num * one'.size)
      (leafCalls srcType dstType onlyPoints fuel pCopy) pCopy.dst := by
  induction fuel generalizing pCopy one one' with
  | zero => exact Nat.le_add_right _ _
  | succ fuel ih =>
    by_cases none' : onlyPoints = true ∧ one.pointNum = 0
    · rw [leafCalls_pruned here there none']
      exact Nat.le_add_right _ _
    · cases copyFunc : one.copyFunc with
      | some f =>
        rw [leafCalls_basic here there none' copyFunc]
        refine ⟨Nat.le_refl _, ?_⟩
        change _ + callLen dstType (f, pCopy) ≤ _
        rw [callLen, there]
        exact Nat.le_refl _
      | none =>
        rw [leafCalls_struct here there none' copyFunc]
        apply Spans.flatMap (fun i => pCopy.dst + i * one'.size)
          (fun i => pCopy.dst + (i + 1) * one'.size)
        · apply List.pairwise_lt_range.imp
          intro i j less
          have more : (i + 1) * one'.size ≤ j * one'.size := Nat.mul_le_mul_right _ less
          exact Nat.add_le_add_left more _
        · intro i _
          have fields : ∀ vars ∈ one.vars.zip one'.vars, Spans dstType
              (pCopy.dst + i * one'.size + vars.2.addr + vars.2.size)
              (leafCalls srcType dstType onlyPoints fuel
                (varCopy pCopy one one' i vars.1 vars.2))
              (pCopy.dst + i * one'.size + vars.2.addr) := by
            intro vars found
            obtain ⟨j, found⟩ := List.mem_iff_getElem?.mp found
            obtain ⟨var, var'⟩ := List.getElem?_zip_eq_some.mp found
            have member := List.mem_of_getElem? var
            have member' := List.mem_of_getElem? var'
            obtain ⟨w, same, typeNum, len⟩ := shape.field here there var
            cases var'.symm.trans same
            obtain ⟨inner, inner_here, _⟩ := table.valid _ one here vars.1 member
            obtain ⟨inner', inner_there, _⟩ := table'.valid _ one' there vars.2 member'
            have elem := layout.elem _ one' there vars.2 member' inner' inner_there
            have size := (table'.size _ one' there vars.2 member').2
            have num := table.num here member
            rw [typeNum] at inner_there
            have inner_here' : getStructOne srcType (varCopy pCopy one one' i vars.1 vars.2).index =
                some inner := inner_here
            have whole := ih inner_here' inner_there
            have room : vars.1.size / vars.1.arrayElemSize * inner'.size = vars.2.size := by
              rw [num, ← len, size, elem]
            simp only [varCopy, room] at whole ⊢
            exact whole
          have next : pCopy.dst + (i + 1) * one'.size = pCopy.dst + i * one'.size + one'.size := by
            rw [Nat.succ_mul, Nat.add_assoc]
          rw [next]
          apply Spans.flatMap (fun vars => pCopy.dst + i * one'.size + vars.2.addr)
            (fun vars => pCopy.dst + i * one'.size + vars.2.addr + vars.2.size)
          · have order := layout.order _ one' there
            have length := shape.vars_length here there
            have lengths := congrArg List.length (shape.same _ one one' here there).2
            simp only [StructOne.fields, List.length_map] at lengths
            have second : (one.vars.zip one'.vars).map Prod.snd = one'.vars :=
              List.map_snd_zip (by omega)
            rw [← second, List.pairwise_map] at order
            apply order.imp
            intro vars vars' less
            omega
          · exact fields
          · intro vars found
            obtain ⟨j, found⟩ := List.mem_iff_getElem?.mp found
            have member' := List.mem_of_getElem? (List.getElem?_zip_eq_some.mp found).2
            have room := layout.inside _ one' there vars.2 member'
            omega
          · omega
        · intro i member
          have less := List.mem_range.mp member
          have more : (i + 1) * one'.size ≤ pCopy.num * one'.size := Nat.mul_le_mul_right _ less
          exact ⟨Nat.le_add_right _ _, Nat.add_le_add_left more _⟩
        · exact Nat.le_add_right _ _

end
end MoonInWater.Sync.Copy
