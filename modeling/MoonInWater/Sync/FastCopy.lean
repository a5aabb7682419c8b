import MoonInWater.Sync.PointSlots

/-! get_block_copy between equal layouts: a copy of all bytes at once and the traversal of the
pointers come to the same as the traversal of everything. -/
namespace MoonInWater.Sync.Copy
open Bytes Endian Loop VarType

section
variable {all : StructAll} {src : Memory} {onlyPoints : Bool} {call call' : Call}
variable {calls : List Call} {one leaf : StructOne} {fuel i k offset : Nat} {rank : Int → Nat}
variable {pCopy : BlockCopy} {t flag : Int} {b : Buffers} {order : ByteOrder}

theorem SameShape.refl (all : StructAll) : SameShape all all := by
  constructor
  · rfl
  · intro t one one' here there
    cases here.symm.trans there
    exact ⟨rfl, rfl⟩

theorem FloatsFit.refl (all : StructAll) : FloatsFit all all := by
  intro t one one' here there _
  cases here.symm.trans there
  rfl

/-- The traversal of the pointers makes some of the calls of that of everything. -/
theorem calls_subset (here : getStructOne all pCopy.index = some one) (table : Table rank all)
    (member : call ∈ leafCalls all all onlyPoints fuel pCopy) :
    call ∈ leafCalls all all false fuel pCopy := by
  induction fuel generalizing pCopy one with
  | zero => cases member
  | succ fuel ih =>
    have whole : ¬ (false = true ∧ one.pointNum = 0) := fun both => Bool.noConfusion both.1
    cases copyFunc : one.copyFunc with
    | some f =>
      rw [mem_basic here here copyFunc member, leafCalls_basic here here whole copyFunc]
      exact List.mem_singleton.mpr rfl
    | none =>
      obtain ⟨i, below, j, v, w, var, var', member⟩ := mem_struct here here copyFunc member
      obtain ⟨inner, inner_here, _⟩ := table.valid _ one here v (List.mem_of_getElem? var)
      have inner_here' : getStructOne all (varCopy pCopy one one i v w).index = some inner :=
        inner_here
      exact mem_struct_of here here copyFunc below var var' (ih inner_here' member)

/-- Between equal layouts each call goes from a place to the same one on the other side. -/
theorem calls_shift (here : getStructOne all pCopy.index = some one) (table : Table rank all)
    (member : call ∈ leafCalls all all onlyPoints fuel pCopy) :
    call.2.src + pCopy.dst = call.2.dst + pCopy.src := by
  induction fuel generalizing pCopy one with
  | zero => cases member
  | succ fuel ih =>
    cases copyFunc : one.copyFunc with
    | some f =>
      rw [mem_basic here here copyFunc member]
      exact Nat.add_comm _ _
    | none =>
      obtain ⟨i, below, j, v, w, var, var', member⟩ := mem_struct here here copyFunc member
      cases var.symm.trans var'
      obtain ⟨inner, inner_here, _⟩ := table.valid _ one here v (List.mem_of_getElem? var)
      have inner_here' : getStructOne all (varCopy pCopy one one i v v).index = some inner :=
        inner_here
      have place := ih inner_here' member
      simp only [varCopy] at place
      omega

/-- A leaf is inside of its element. -/
theorem leaf_inside (layout : Layout all) (table : Table rank all)
    (leafAt : LeafAt all t offset flag) (here : getStructOne all t = some one)
    (found : getStructOne all flag = some leaf) : offset + leaf.size ≤ one.size := by
  induction leafAt generalizing one with
  | basic here' none' =>
    cases here.symm.trans found
    rw [Nat.zero_add]
  | @field t one₁ inner v k offset b here' member inside inner_here leafAt ih =>
    have same := Option.some.inj (here.symm.trans here')
    subst same
    have rest := ih inner_here found
    have room := layout.inside t one here v member
    have size := (table.size t one here v member).2
    have more : (k + 1) * inner.size ≤ v.len * inner.size := Nat.mul_le_mul_right _ inside
    rw [layout.elem t one here v member inner inner_here] at size
    rw [Nat.succ_mul] at more
    omega

/-- Two calls of a list write to different bytes. -/
theorem Spans.apart {dstType : StructAll} {hi lo : Nat} (spans : Spans dstType hi calls lo)
    (member : call ∈ calls) (member' : call' ∈ calls) (other : call ≠ call') :
    call'.2.dst + callLen dstType call' ≤ call.2.dst ∨
      call.2.dst + callLen dstType call ≤ call'.2.dst := by
  obtain ⟨front, rear, split⟩ := List.append_of_mem member
  rw [split] at spans member'
  obtain ⟨before, behind⟩ := spans.split
  rcases List.mem_append.mp member' with found | found
  · exact .inl (before call' found)
  · rcases List.mem_cons.mp found with same | found
    · exact absurd same.symm other
    · exact .inr (behind call' found)

theorem memcpy_add {mem : Memory} {p q m n : Nat} :
    memcpy mem p src q (m + n) = memcpy (memcpy mem p src q m) (p + m) src (q + m) n := by
  rw [memcpy, memcpy, memcpy, read_append, write_append, read_length]

/-- The pointers of an array one by one. -/
theorem memcpy_slots {mem : Memory} {p q n : Nat} : memcpy mem p src q (n * pointerLen) =
    (List.range n).foldl (fun mem k =>
      memcpy mem (p + pointerLen * k) src (q + pointerLen * k) pointerLen) mem := by
  induction n with
  | zero => rw [Nat.zero_mul]; rfl
  | succ n ih =>
    rw [Nat.succ_mul, memcpy_add, ih, List.range_succ, List.foldl_append, Nat.mul_comm n]
    rfl

/-- A pointer that goes into its slot. -/
def slotStep (src : Memory) (mem : Memory) (x : (Nat × Nat × Nat) × Int) : Memory :=
  memcpy mem ((pointerLen * (x.2 - x.1.2.2)).toNat + pointerLen * x.1.2.2) src
    (x.1.1 + pointerLen * x.1.2.2) pointerLen

/-- Out of a block the slots get the pointers of all calls, one by one. -/
theorem fold_points (leaves : AllLeaves all all 0 calls) :
    (calls.foldl (copyStep order src all all) b).points =
      (pointers calls).foldl (slotStep src) b.points := by
  induction calls generalizing b with
  | nil => rfl
  | cons call calls ih =>
    obtain ⟨one, one', fine⟩ := leaves call List.mem_cons_self
    have split : pointers (call :: calls) = pointersOf call ++ pointers calls :=
      List.flatMap_cons ..
    rw [List.foldl_cons, ih fun x member => leaves x (List.mem_cons_of_mem _ member), split,
      List.foldl_append]
    congr 1
    by_cases point : call.1 = .pointCopy
    · have step : (copyStep order src all all b call).points =
          memcpy b.points (slotAddr call) src call.2.src (call.2.num * pointerLen) := by
        rw [copyStep_point fine point, pointCopy, if_pos fine.flag]
        rfl
      rw [step, memcpy_slots, pointersOf, if_pos point, List.foldl_map]
      congr 1
      funext mem k
      simp only [slotStep, slotAddr, Int.add_sub_cancel]
    · rw [pointersOf, if_neg point]
      funext a
      exact copyStep_points_apart fine fun same => absurd same point

/-- Both traversals leave the same pointers in the array. -/
theorem points_agree (table : Table rank all) (here : getStructOne all pCopy.index = some one)
    (enough : rank pCopy.index < fuel) {b' : Buffers} (same : b'.points = b.points) :
    ((leafCalls all all true fuel pCopy).foldl (copyStep order src all all) b').points =
      ((leafCalls all all false fuel pCopy).foldl (copyStep order src all all) b).points := by
  have leaves : AllLeaves all all pCopy.flag (leafCalls all all true fuel pCopy) :=
    calls_all table (SameShape.refl all) here
  have leaves' : AllLeaves all all pCopy.flag (leafCalls all all false fuel pCopy) :=
    calls_all table (SameShape.refl all) here
  by_cases out : pCopy.flag = 0
  · rw [out] at leaves leaves'
    rw [fold_points leaves, fold_points leaves', same,
      pointers_modes table (SameShape.refl all) here enough]
  · rw [fold_points_back leaves out, fold_points_back leaves' out, same]

/-- A pointer of the block is copied by a call of the traversal of the pointers too. -/
theorem point_called (table : Table rank all) (here : getStructOne all pCopy.index = some one)
    (enough : rank pCopy.index < fuel)
    (member : call ∈ leafCalls all all false fuel pCopy) (point : call.1 = .pointCopy)
    (below : k < call.2.num) :
    ∃ call', (.pointCopy, call') ∈ leafCalls all all true fuel pCopy ∧ call'.src = call.2.src ∧
      call'.dst = call.2.dst ∧ k < call'.num ∧ call'.points = call.2.points := by
  have pointer : ((call.2.src, call.2.dst, k), call.2.points + (k : Int)) ∈
      pointers (leafCalls all all false fuel pCopy) := by
    apply List.mem_flatMap.mpr
    refine ⟨call, member, ?_⟩
    rw [pointersOf, if_pos point]
    exact List.mem_map.mpr ⟨k, List.mem_range.mpr below, rfl⟩
  rw [← pointers_modes table (SameShape.refl all) here enough] at pointer
  obtain ⟨call', member', found⟩ := List.mem_flatMap.mp pointer
  by_cases point' : call'.1 = .pointCopy
  · rw [pointersOf, if_pos point'] at found
    obtain ⟨k', below', same⟩ := List.mem_map.mp found
    obtain ⟨places, slot⟩ := Prod.mk.inj same
    obtain ⟨source, places⟩ := Prod.mk.inj places
    obtain ⟨target, index⟩ := Prod.mk.inj places
    subst index
    refine ⟨call'.2, point' ▸ member', source, target, List.mem_range.mp below', ?_⟩
    omega
  · rw [pointersOf, if_neg point'] at found
    cases found

/-- Both ways leave the same byte in a leaf of the destination. -/
theorem byte_agrees (table : Table rank all) (layout : Layout all)
    (here : getStructOne all pCopy.index = some one) (enough : rank pCopy.index < fuel)
    {mem : Memory} (below : i < pCopy.num) (leafAt : LeafAt all pCopy.index offset t)
    (found : getStructOne all t = some leaf) {j : Nat} (inside : j < leaf.size) :
    ((leafCalls all all true fuel pCopy).foldl (copyStep .little src all all)
        ⟨memcpy mem pCopy.dst src pCopy.src (one.size * pCopy.num), b.points⟩).dst
          (pCopy.dst + i * one.size + offset + j) =
      ((leafCalls all all false fuel pCopy).foldl (copyStep .little src all all)
        ⟨mem, b.points⟩).dst (pCopy.dst + i * one.size + offset + j) := by
  have shape := SameShape.refl all
  obtain ⟨f, call, leaf', k, member, found', copyFunc, index, less, place⟩ :=
    leaf_called table shape leafAt here rfl below enough
  cases found.symm.trans found'
  have shift := calls_shift here table member
  dsimp only at shift
  have len : callLen all (f, call) = call.num * leaf.size := by
    rw [callLen, index, found]
    rfl
  have more : (k + 1) * leaf.size ≤ call.num * leaf.size := Nat.mul_le_mul_right _ less
  rw [Nat.succ_mul] at more
  have near : k * leaf.size + j < callLen all (f, call) := by omega
  have target : pCopy.dst + i * one.size + offset + j = call.dst + (k * leaf.size + j) := by omega
  rw [target]
  obtain ⟨mid, kept, full⟩ := dst_after .little src table table shape layout here here member near
    ⟨mem, b.points⟩
  obtain ⟨one₁, one₂, fine⟩ := calls_leaf table shape here member
  have here₁ := fine.here
  have here₂ := fine.there
  dsimp only at here₁ here₂ full
  rw [index, found] at here₁ here₂
  cases here₁
  cases here₂
  by_cases point : f = .pointCopy
  · subst point
    have size : leaf.size = pointerLen := layout.pointer t leaf found copyFunc
    obtain ⟨call', member', source, target', less', points⟩ :=
      point_called table here enough member rfl less
    dsimp only at source target' points
    obtain ⟨one₁, one₂, fine'⟩ := calls_leaf table shape here member'
    have size' : one₂.size = pointerLen := by
      apply layout.pointer _ one₂ fine'.there
      rw [(shape.same _ one₁ one₂ fine'.here fine'.there).1, fine'.copyFunc]
    have more' : (k + 1) * pointerLen ≤ call'.num * pointerLen := Nat.mul_le_mul_right _ less'
    rw [Nat.succ_mul] at more'
    have room : k * leaf.size + j < call.num * pointerLen := by
      rw [← size]
      omega
    have room' : k * leaf.size + j < call'.num * pointerLen := by
      rw [size] at inside ⊢
      omega
    have near' : k * leaf.size + j < callLen all (.pointCopy, call') := by
      rw [callLen_eq fine', size']
      exact room'
    obtain ⟨mid', kept', fast⟩ := dst_after .little src table table shape layout here here member'
      near' ⟨memcpy mem pCopy.dst src pCopy.src (one.size * pCopy.num), b.points⟩
    dsimp only at fast
    rw [target'] at fast
    rw [full, fast]
    by_cases out : pCopy.flag = 0
    · rw [out] at fine fine'
      rw [copyStep_dst_zero fine rfl near, ← target']
      exact copyStep_dst_zero fine' rfl near'
    · have slot : slotAddr (.pointCopy, call') = slotAddr (.pointCopy, call) := by
        rw [slotAddr, slotAddr, points]
      have first : (copyStep .little src all all mid (.pointCopy, call)).dst
          (call.dst + (k * leaf.size + j)) = _ := copyStep_dst_point fine out rfl room
      have second : (copyStep .little src all all mid' (.pointCopy, call')).dst
          (call'.dst + (k * leaf.size + j)) = _ := copyStep_dst_point fine' out rfl room'
      rw [first, kept out, ← target', second, kept' out, slot]
  · have leaves : AllLeaves all all pCopy.flag (leafCalls all all true fuel pCopy) :=
      calls_all table shape here
    have spans : Spans all _ (leafCalls all all false fuel pCopy) _ :=
      calls_span table table shape layout here here
    rw [full, copyStep_dst_plain fine rfl point near, fold_dst_apart leaves layout shape]
    · have room := leaf_inside layout table leafAt here found
      have less : (i + 1) * one.size ≤ pCopy.num * one.size := Nat.mul_le_mul_right _ below
      rw [Nat.succ_mul] at less
      have inner : i * one.size + offset + j < one.size * pCopy.num := by
        rw [Nat.mul_comm one.size]
        omega
      have copied : memcpy mem pCopy.dst src pCopy.src (one.size * pCopy.num)
          (pCopy.dst + (i * one.size + offset + j)) = _ := memcpy_at inner
      have source : call.src + (k * leaf.size + j) =
          pCopy.src + (i * one.size + offset + j) := by omega
      rw [source, ← copied, ← target, Nat.add_assoc, Nat.add_assoc, Nat.add_assoc]
    · intro x member'
      have other : x ≠ (f, call) := by
        rintro rfl
        exact point (points_only table shape here member')
      have apart := spans.apart (calls_subset here table member') member other
      dsimp only at apart
      omega

end

/-- Between equal layouts on a little-endian host the fast copy leaves the same bytes in every leaf,
and the same pointers, as the copy of everything. -/
theorem fast_agrees {rank : Int → Nat} {all : StructAll} (table : Table rank all)
    (layout : Layout all) (src : Memory) (pCopy : BlockCopy) (pOne : StructOne)
    (here : getStructOne all pCopy.index = some pOne) :
    ∃ enough, ∀ fuel ≥ enough, ∀ b, ∃ fast full,
      getBlockCopy .little src all all true fuel pCopy b = some (fast, 0) ∧
      _getBlockCopy .little src all all false fuel pCopy b = some (full, 0) ∧
      fast.points = full.points ∧
      ∀ i < pCopy.num, ∀ offset t leaf, LeafAt all pCopy.index offset t →
        getStructOne all t = some leaf →
        read fast.dst (pCopy.dst + i * pOne.size + offset) leaf.size =
          read full.dst (pCopy.dst + i * pOne.size + offset) leaf.size := by
  refine ⟨rank pCopy.index + 1, fun fuel enough b => ?_⟩
  have shape := SameShape.refl all
  obtain ⟨valid, found⟩ := getStructOne_eq_some.mp here
  have inside := (List.getElem?_eq_some_iff.mp found).1
  have refused : ¬ (pCopy.index < 0 ∨ (all.length : Int) ≤ pCopy.index) := by omega
  have fast : getBlockCopy .little src all all true fuel pCopy b =
      some ((leafCalls all all true fuel pCopy).foldl (copyStep .little src all all)
        ⟨memcpy b.dst pCopy.dst src pCopy.src (pOne.size * pCopy.num), b.points⟩, 0) := by
    rw [getBlockCopy, if_neg refused, here, Option.bind_some, if_pos rfl]
    exact plain_run table shape (.inl rfl) here enough _
  refine ⟨_, _, fast, plain_run table shape (.inr (FloatsFit.refl all)) here enough b, ?_, ?_⟩
  · exact points_agree table here enough rfl
  · intro i below offset t leaf leafAt found
    rw [read_eq_map, read_eq_map]
    apply List.map_congr_left
    intro j member
    exact byte_agrees table layout here enough below leafAt found (List.mem_range.mp member)

theorem floatPair_layout : Layout (floatPair 4) := by
  constructor
  · intro t one here v member inner inner_here
    rcases floatPair_cases here with ⟨rfl, rfl⟩ | ⟨rfl, rfl⟩ | ⟨rfl, rfl⟩
    · cases member
    · cases member
    · rcases List.mem_cons.mp member with rfl | member
      · cases inner_here
        rfl
      · rcases List.mem_singleton.mp member with rfl
        cases inner_here
        rfl
  · intro t one here
    rcases floatPair_cases here with ⟨rfl, rfl⟩ | ⟨rfl, rfl⟩ | ⟨rfl, rfl⟩ <;> decide
  · intro t one here
    rcases floatPair_cases here with ⟨rfl, rfl⟩ | ⟨rfl, rfl⟩ | ⟨rfl, rfl⟩ <;> decide
  · intro t one here point
    rcases floatPair_cases here with ⟨rfl, rfl⟩ | ⟨rfl, rfl⟩ | ⟨rfl, rfl⟩
    · rfl
    · cases point
    · cases point

theorem fast_agrees_pair : ∃ fuel fast full,
    getBlockCopy .little (fun _ => 7) (floatPair 4) (floatPair 4) true fuel pairCopy
      ⟨fun _ => 1, fun _ => 2⟩ = some (fast, 0) ∧
    _getBlockCopy .little (fun _ => 7) (floatPair 4) (floatPair 4) false fuel pairCopy
      ⟨fun _ => 1, fun _ => 2⟩ = some (full, 0) ∧
    fast.points = full.points ∧ read fast.dst 8 8 = read full.dst 8 8 := by
  have table : Table Int.toNat (floatPair 4) := floatPair_table (by decide)
  obtain ⟨fuel, runs⟩ := fast_agrees table floatPair_layout (fun _ => 7) pairCopy (pairType 4) rfl
  obtain ⟨fast, full, ran, ran', points, leaves⟩ :=
    runs fuel (Nat.le_refl fuel) ⟨fun _ => 1, fun _ => 2⟩
  have here : getStructOne (floatPair 4) 2 = some (pairType 4) := rfl
  have pointer_here : getStructOne (floatPair 4) 0 = some pointerType := rfl
  have leafAt : LeafAt (floatPair 4) 2 (8 + 0 * 8 + 0) 0 :=
    .field here (List.mem_cons_of_mem _ (List.mem_singleton.mpr rfl)) (by decide) pointer_here
      (.basic pointer_here rfl)
  exact ⟨fuel, fast, full, ran, ran', points,
    leaves 0 (by decide) _ 0 pointerType leafAt pointer_here⟩

end MoonInWater.Sync.Copy
