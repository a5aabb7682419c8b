import Mathlib.Data.List.Nodup
import MoonInWater.Sync.CopyLayout

/-! What the calls of the copy functions leave in the destination and in the array of pointers. -/
namespace MoonInWater.Sync.Copy
open Bytes Endian Loop VarType

/-- The floats have one size on both sides. -/
def FloatsFit (srcType dstType : StructAll) : Prop :=
  ∀ t one one', getStructOne srcType t = some one → getStructOne dstType t = some one' →
    one.copyFunc = some .floatCopy → one.size = one'.size

section
variable (order : ByteOrder) (src : Memory) (srcType dstType : StructAll)

/-- The buffers after a call. -/
def copyStep (b : Buffers) (call : Call) : Buffers :=
  ((callCopyFunc order src srcType dstType call.1 call.2 b).map Prod.fst).getD b

/-- The call of a copy function, put on record. -/
def traced (f : CopyFunc) (pCopy : BlockCopy) (s : Buffers × List Call) :
    Option ((Buffers × List Call) × Int) :=
  (callCopyFunc order src srcType dstType f pCopy s.1).map fun r =>
    ((r.1, s.2 ++ [(f, pCopy)]), r.2)

end

section
variable {src mem : Memory} {order : ByteOrder} {pCopy : BlockCopy} {s d a n k p : Nat}

theorem memcpy_apart {q : Nat} (outside : a < p ∨ p + n ≤ a) : memcpy mem p src q n a = mem a :=
  write_apart (by rw [read_length]; exact outside)

theorem memset_apart {x : UInt8} (outside : a < p ∨ p + n ≤ a) : memset mem p x n a = mem a :=
  write_apart (by rw [List.length_replicate]; exact outside)

theorem memset_at {x : UInt8} (inside : k < n) : memset mem p x n (p + k) = x := by
  have same : read (memset mem p x n) p n = List.replicate n x :=
    read_written (List.length_replicate ..)
  rw [read_eq_map] at same
  have both := congrArg (fun bytes => bytes[k]?) same
  simpa only [List.getElem?_map, List.getElem?_range inside, Option.map_some,
    List.getElem?_replicate, if_pos inside, Option.some.injEq] using both

theorem elements_apart {turn : Nat → Memory → Memory}
    (keeps : ∀ i < n, ∀ mem, turn i mem a = mem a) : elements turn n mem a = mem a := by
  induction n with
  | zero => rfl
  | succ n ih =>
    rw [elements, keeps n (Nat.lt_succ_self n)]
    exact ih fun i less => keeps i (Nat.lt_succ_of_lt less)

/-- The bytes of an element are inside of the destination. -/
theorem dstByte_ne {i j : Nat} (below : i < pCopy.num) (inside : j < d)
    (outside : a < pCopy.dst ∨ pCopy.dst + pCopy.num * d ≤ a) :
    dstByte order d pCopy i j ≠ a := by
  have range : pCopy.dst + d * i ≤ dstByte order d pCopy i j ∧
      dstByte order d pCopy i j < pCopy.dst + d * i + d := by
    rw [dstByte_eq]
    exact place_inside inside
  have more : d * (i + 1) ≤ d * pCopy.num := Nat.mul_le_mul_left d below
  rw [Nat.mul_succ, Nat.mul_comm d pCopy.num] at more
  omega

theorem unsignedIntCopy_apart (outside : a < pCopy.dst ∨ pCopy.dst + pCopy.num * d ≤ a) :
    unsignedIntCopy order src s d pCopy mem a = mem a := by
  unfold unsignedIntCopy
  split
  · exact memcpy_apart outside
  · apply elements_apart
    intro i below mem
    exact copyLoop_apart fun j less => dstByte_ne below (by omega) outside

theorem signedIntCopy_apart (outside : a < pCopy.dst ∨ pCopy.dst + pCopy.num * d ≤ a) :
    signedIntCopy order src s d pCopy mem a = mem a := by
  unfold signedIntCopy
  split
  · exact memcpy_apart outside
  · apply elements_apart
    intro i below mem
    have kept : copyLoop src (dstByte order d pCopy i) (srcByte order s pCopy i) (min s d) mem a =
        mem a := copyLoop_apart fun j less => dstByte_ne below (by omega) outside
    split
    · rw [extendLoop_apart fun j less => dstByte_ne below (by omega) outside]
      exact kept
    · exact kept

theorem floatCopy_apart (outside : a < pCopy.dst ∨ pCopy.dst + pCopy.num * d ≤ a) :
    (floatCopy order src s d pCopy mem).1 a = mem a := by
  unfold floatCopy
  split
  · rfl
  · rename_i same
    split
    · exact memcpy_apart outside
    · apply elements_apart
      intro i below mem
      exact copyLoop_apart fun j less => dstByte_ne below (by omega) outside

end

section
variable {srcType dstType : StructAll} {order : ByteOrder} {src : Memory} {flag : Int}
variable {call : Call} {calls : List Call} {one one' : StructOne} {b : Buffers} {a k : Nat}

theorem callLen_eq (leaf : Leaf srcType dstType flag call one one') :
    callLen dstType call = call.2.num * one'.size := by
  rw [callLen, leaf.there]
  rfl

/-- The address of the first slot of a call. -/
def slotAddr (call : Call) : Nat := (pointerLen * call.2.points).toNat

theorem callCopyFunc_ret {f : CopyFunc} {pCopy : BlockCopy} {r : Buffers × Int}
    (ran : callCopyFunc order src srcType dstType f pCopy b = some r) (ok : 0 ≤ r.2) :
    r.2 = 0 := by
  obtain ⟨one, _, ran⟩ := Option.bind_eq_some_iff.mp ran
  obtain ⟨one', _, ran⟩ := Option.map_eq_some_iff.mp ran
  subst ran
  cases f with
  | unsignedIntCopy => rfl
  | signedIntCopy => rfl
  | pointCopy => rfl
  | floatCopy =>
    unfold floatCopy at ok ⊢
    dsimp only at ok ⊢
    split at ok
    · omega
    · split at ok
      · rename_i same little
        rw [if_neg same, if_pos little]
      · rename_i same big
        rw [if_neg same, if_neg big]

theorem callCopyFunc_total (leaf : Leaf srcType dstType flag call one one')
    (fits : call.1 = .floatCopy → one.size = one'.size) :
    callCopyFunc order src srcType dstType call.1 call.2 b =
      some (copyStep order src srcType dstType b call, 0) := by
  rw [copyStep, callCopyFunc, leaf.here, leaf.there, Option.bind_some, Option.map_some]
  cases func : call.1 with
  | unsignedIntCopy => rfl
  | signedIntCopy => rfl
  | pointCopy => rfl
  | floatCopy =>
    have same := fits func
    dsimp only [Option.map_some, Option.getD_some]
    unfold floatCopy
    rw [if_neg (not_not.mpr same)]
    split <;> rfl

/-- A call writes to the destination within its elements. -/
theorem copyStep_dst_apart (leaf : Leaf srcType dstType flag call one one')
    (layout : Layout dstType) (shape : SameShape srcType dstType)
    (outside : a < call.2.dst ∨ call.2.dst + callLen dstType call ≤ a) :
    (copyStep order src srcType dstType b call).dst a = b.dst a := by
  rw [callLen_eq leaf] at outside
  rw [copyStep, callCopyFunc, leaf.here, leaf.there, Option.bind_some, Option.map_some]
  cases func : call.1 with
  | unsignedIntCopy => exact unsignedIntCopy_apart outside
  | signedIntCopy => exact signedIntCopy_apart outside
  | floatCopy => exact floatCopy_apart outside
  | pointCopy =>
    have size : one'.size = pointerLen := by
      apply layout.pointer _ one' leaf.there
      rw [(shape.same _ one one' leaf.here leaf.there).1, leaf.copyFunc, func]
    dsimp only [Option.map_some, Option.getD_some]
    unfold pointCopy
    split
    · exact memset_apart outside
    · rw [size] at outside
      exact memcpy_apart outside

/-- A call writes to the slots of its pointers. -/
theorem copyStep_points_apart (leaf : Leaf srcType dstType flag call one one')
    (outside : call.1 = .pointCopy → flag = 0 →
      a < slotAddr call ∨ slotAddr call + call.2.num * pointerLen ≤ a) :
    (copyStep order src srcType dstType b call).points a = b.points a := by
  rw [copyStep, callCopyFunc, leaf.here, leaf.there, Option.bind_some, Option.map_some]
  cases func : call.1 with
  | unsignedIntCopy => rfl
  | signedIntCopy => rfl
  | floatCopy => rfl
  | pointCopy =>
    dsimp only [Option.map_some, Option.getD_some]
    unfold pointCopy
    split
    · rename_i out
      exact memcpy_apart (outside func (leaf.flag ▸ out))
    · rfl

theorem copyStep_point (leaf : Leaf srcType dstType flag call one one')
    (point : call.1 = .pointCopy) : copyStep order src srcType dstType b call =
      pointCopy src one'.size call.2 b := by
  rw [copyStep, callCopyFunc, leaf.here, leaf.there, Option.bind_some, Option.map_some, point]
  rfl

/-- Out of the block the pointers go into their slots. -/
theorem copyStep_points (leaf : Leaf srcType dstType 0 call one one')
    (point : call.1 = .pointCopy) (inside : k < call.2.num * pointerLen) :
    (copyStep order src srcType dstType b call).points (slotAddr call + k) =
      src (call.2.src + k) := by
  rw [copyStep_point leaf point, pointCopy, if_pos leaf.flag]
  exact memcpy_at inside

theorem copyStep_dst_zero (leaf : Leaf srcType dstType 0 call one one')
    (point : call.1 = .pointCopy) (inside : k < callLen dstType call) :
    (copyStep order src srcType dstType b call).dst (call.2.dst + k) = 0 := by
  rw [callLen_eq leaf] at inside
  rw [copyStep_point leaf point, pointCopy, if_pos leaf.flag]
  exact memset_at inside

/-- Back into a block they come from there. -/
theorem copyStep_dst_point (leaf : Leaf srcType dstType flag call one one') (back : flag ≠ 0)
    (point : call.1 = .pointCopy) (inside : k < call.2.num * pointerLen) :
    (copyStep order src srcType dstType b call).dst (call.2.dst + k) =
      b.points (slotAddr call + k) := by
  rw [copyStep_point leaf point, pointCopy, if_neg (by rw [leaf.flag]; exact back)]
  exact memcpy_at inside

/-- On a little-endian host the other types are copied as they are, where their sizes are equal. -/
theorem copyStep_dst_plain (leaf : Leaf srcType dstType flag call one one')
    (same : one.size = one'.size) (other : call.1 ≠ .pointCopy)
    (inside : k < callLen dstType call) :
    (copyStep .little src srcType dstType b call).dst (call.2.dst + k) = src (call.2.src + k) := by
  rw [callLen_eq leaf] at inside
  rw [copyStep, callCopyFunc, leaf.here, leaf.there, Option.bind_some, Option.map_some]
  cases func : call.1 with
  | unsignedIntCopy =>
    dsimp only [Option.map_some, Option.getD_some]
    rw [unsignedIntCopy, if_pos ⟨same, rfl⟩]
    exact memcpy_at inside
  | signedIntCopy =>
    dsimp only [Option.map_some, Option.getD_some]
    rw [signedIntCopy, if_pos ⟨same, rfl⟩]
    exact memcpy_at inside
  | floatCopy =>
    dsimp only [Option.map_some, Option.getD_some]
    rw [floatCopy, if_neg (not_not.mpr same), if_pos rfl]
    exact memcpy_at inside
  | pointCopy => exact absurd func other

/-- The calls are for basic types of both tables. -/
def AllLeaves (srcType dstType : StructAll) (flag : Int) (calls : List Call) : Prop :=
  ∀ call ∈ calls, ∃ one one', Leaf srcType dstType flag call one one'

theorem fold_dst_apart (leaves : AllLeaves srcType dstType flag calls) (layout : Layout dstType)
    (shape : SameShape srcType dstType)
    (outside : ∀ call ∈ calls, a < call.2.dst ∨ call.2.dst + callLen dstType call ≤ a) :
    (calls.foldl (copyStep order src srcType dstType) b).dst a = b.dst a := by
  induction calls generalizing b with
  | nil => rfl
  | cons call calls ih =>
    obtain ⟨one, one', leaf⟩ := leaves call List.mem_cons_self
    rw [List.foldl_cons, ih (fun x member => leaves x (List.mem_cons_of_mem _ member))
      fun x member => outside x (List.mem_cons_of_mem _ member)]
    exact copyStep_dst_apart leaf layout shape (outside call List.mem_cons_self)

theorem fold_points_apart (leaves : AllLeaves srcType dstType flag calls)
    (outside : ∀ call ∈ calls, call.1 = .pointCopy → flag = 0 →
      a < slotAddr call ∨ slotAddr call + call.2.num * pointerLen ≤ a) :
    (calls.foldl (copyStep order src srcType dstType) b).points a = b.points a := by
  induction calls generalizing b with
  | nil => rfl
  | cons call calls ih =>
    obtain ⟨one, one', leaf⟩ := leaves call List.mem_cons_self
    rw [List.foldl_cons, ih (fun x member => leaves x (List.mem_cons_of_mem _ member))
      fun x member => outside x (List.mem_cons_of_mem _ member)]
    exact copyStep_points_apart leaf (outside call List.mem_cons_self)

/-- Back into a block the slots are only read. -/
theorem fold_points_back (leaves : AllLeaves srcType dstType flag calls) (back : flag ≠ 0) :
    (calls.foldl (copyStep order src srcType dstType) b).points = b.points := by
  funext a
  exact fold_points_apart leaves fun _ _ _ out => absurd out back

end

section
variable {srcType dstType : StructAll} {order : ByteOrder} {src : Memory} {onlyPoints : Bool}
variable {call : Call} {calls : List Call} {one one' : StructOne} {b : Buffers} {fuel k n : Nat}
variable {rank rank' : Int → Nat} {pCopy : BlockCopy} {start q : Int}

theorem calls_all (table : Table rank srcType) (shape : SameShape srcType dstType)
    (here : getStructOne srcType pCopy.index = some one) :
    AllLeaves srcType dstType pCopy.flag (leafCalls srcType dstType onlyPoints fuel pCopy) :=
  fun _ member => calls_leaf table shape here member

theorem fold_traced (calls before : List Call) :
    calls.foldl (fun s call => (copyStep order src srcType dstType s.1 call, s.2 ++ [call]))
        (b, before) =
      (calls.foldl (copyStep order src srcType dstType) b, before ++ calls) := by
  induction calls generalizing b before with
  | nil => rw [List.foldl_nil, List.foldl_nil, List.append_nil]
  | cons call calls ih => rw [List.foldl_cons, List.foldl_cons, ih, List.append_assoc,
      List.singleton_append]

/-- The traversal of the pointers calls point_copy alone. -/
theorem points_only (table : Table rank srcType) (shape : SameShape srcType dstType)
    (here : getStructOne srcType pCopy.index = some one)
    (member : call ∈ leafCalls srcType dstType true fuel pCopy) : call.1 = .pointCopy := by
  induction fuel generalizing pCopy one with
  | zero => cases member
  | succ fuel ih =>
    obtain ⟨one', there⟩ := shape.partner here
    cases copyFunc : one.copyFunc with
    | some f =>
      by_contra other
      have same := mem_basic here there copyFunc member
      subst same
      have basic := (table.basic _ one here).mpr (by rw [copyFunc]; simp)
      have count := table.preset _ one here basic
      rw [copyFunc, if_neg fun same => other (Option.some.inj same)] at count
      rw [leafCalls_pruned here there ⟨rfl, count⟩] at member
      cases member
    | none =>
      obtain ⟨i, _, j, v, w, var, _, member⟩ := mem_struct here there copyFunc member
      obtain ⟨inner, inner_here, _⟩ := table.valid _ one here v (List.mem_of_getElem? var)
      have inner_here' : getStructOne srcType (varCopy pCopy one one' i v w).index = some inner :=
        inner_here
      exact ih inner_here' member

/-- No call of a traversal fails, where the floats have one size or are left out. -/
theorem calls_total (table : Table rank srcType) (shape : SameShape srcType dstType)
    (fits : onlyPoints = true ∨ FloatsFit srcType dstType)
    (here : getStructOne srcType pCopy.index = some one)
    (member : call ∈ leafCalls srcType dstType onlyPoints fuel pCopy) (b : Buffers) :
    callCopyFunc order src srcType dstType call.1 call.2 b =
      some (copyStep order src srcType dstType b call, 0) := by
  obtain ⟨leaf, leaf', fine⟩ := calls_leaf table shape here member
  apply callCopyFunc_total fine
  intro float
  rcases fits with rfl | floats
  · have point := points_only table shape here member
    rw [float] at point
    cases point
  · exact floats _ leaf leaf' fine.here fine.there (fine.copyFunc.trans (congrArg some float))

/-- A run of _get_block_copy and the calls that it makes. -/
theorem traced_run (table : Table rank srcType) (shape : SameShape srcType dstType)
    (fits : onlyPoints = true ∨ FloatsFit srcType dstType)
    (here : getStructOne srcType pCopy.index = some one) (enough : rank pCopy.index < fuel)
    (b : Buffers) :
    getBlockCopyOf (traced order src srcType dstType) srcType dstType onlyPoints fuel pCopy
        (b, []) =
      some (((leafCalls srcType dstType onlyPoints fuel pCopy).foldl
        (copyStep order src srcType dstType) b,
          leafCalls srcType dstType onlyPoints fuel pCopy), 0) := by
  have ret : ∀ f pCopy s r, traced order src srcType dstType f pCopy s = some r → 0 ≤ r.2 →
      r.2 = 0 := by
    intro f pCopy s r ran ok
    obtain ⟨r', called, same⟩ := Option.map_eq_some_iff.mp ran
    subst same
    exact callCopyFunc_ret called ok
  have total : ∀ call ∈ leafCalls srcType dstType onlyPoints fuel pCopy, ∀ s : Buffers × List Call,
      traced order src srcType dstType call.1 call.2 s =
        some ((copyStep order src srcType dstType s.1 call, s.2 ++ [call]), 0) := by
    intro call member s
    rw [traced, calls_total table shape fits here member]
    rfl
  rw [run_eq_calls ret table shape here enough, each_total total, fold_traced, List.nil_append]

theorem plain_run (table : Table rank srcType) (shape : SameShape srcType dstType)
    (fits : onlyPoints = true ∨ FloatsFit srcType dstType)
    (here : getStructOne srcType pCopy.index = some one) (enough : rank pCopy.index < fuel)
    (b : Buffers) :
    _getBlockCopy order src srcType dstType onlyPoints fuel pCopy b =
      some ((leafCalls srcType dstType onlyPoints fuel pCopy).foldl
        (copyStep order src srcType dstType) b, 0) := by
  rw [_getBlockCopy, run_eq_calls (fun _ _ _ _ => callCopyFunc_ret) table shape here enough]
  apply each_total
  intro call member b
  exact calls_total table shape fits here member b

/-- What stands in the elements of a call in the end is what the call has written. -/
theorem dst_after (order : ByteOrder) (src : Memory) (table : Table rank srcType)
    (table' : Table rank' dstType) (shape : SameShape srcType dstType) (layout : Layout dstType)
    (here : getStructOne srcType pCopy.index = some one)
    (there : getStructOne dstType pCopy.index = some one')
    (member : call ∈ leafCalls srcType dstType onlyPoints fuel pCopy)
    (inside : k < callLen dstType call) (b : Buffers) :
    ∃ mid, (pCopy.flag ≠ 0 → mid.points = b.points) ∧
      ((leafCalls srcType dstType onlyPoints fuel pCopy).foldl
        (copyStep order src srcType dstType) b).dst (call.2.dst + k) =
          (copyStep order src srcType dstType mid call).dst (call.2.dst + k) := by
  have leaves : AllLeaves srcType dstType pCopy.flag
      (leafCalls srcType dstType onlyPoints fuel pCopy) := calls_all table shape here
  have spans : Spans dstType _ (leafCalls srcType dstType onlyPoints fuel pCopy) _ :=
    calls_span table table' shape layout here there
  obtain ⟨front, rear, calls⟩ := List.append_of_mem member
  rw [calls] at leaves spans
  refine ⟨front.foldl (copyStep order src srcType dstType) b, fun back => ?_, ?_⟩
  · exact fold_points_back (fun x found => leaves x (List.mem_append_left _ found)) back
  · rw [calls, List.foldl_append, List.foldl_cons]
    have rest : AllLeaves srcType dstType pCopy.flag rear :=
      fun x found => leaves x (List.mem_append_right _ (List.mem_cons_of_mem _ found))
    apply fold_dst_apart rest layout shape
    intro x found
    have behind := spans.split.2 x found
    omega

theorem mem_slots : q ∈ slots start n ↔ start ≤ q ∧ q < start + n := by
  rw [slots, List.mem_map]
  constructor
  · rintro ⟨k, member, rfl⟩
    have less := List.mem_range.mp member
    omega
  · rintro ⟨low, high⟩
    exact ⟨(q - start).toNat, List.mem_range.mpr (by omega), by omega⟩

theorem slots_nodup : (slots start n).Nodup := by
  apply List.Nodup.map _ List.nodup_range
  intro i j same
  change start + (i : Int) = start + (j : Int) at same
  omega

/-- The slots of a call are among those of all calls. -/
theorem slot_mem (member : call ∈ calls) (point : call.1 = .pointCopy) (inside : k < call.2.num) :
    call.2.points + k ∈ (pointers calls).map Prod.snd := by
  apply List.mem_map.mpr
  refine ⟨((call.2.src, call.2.dst, k), call.2.points + k), List.mem_flatMap.mpr ⟨call, member, ?_⟩,
    rfl⟩
  rw [pointersOf, if_pos point]
  exact List.mem_map.mpr ⟨k, List.mem_range.mpr inside, rfl⟩

/-- What stands in the slots of a call in the end is what the call has written. -/
theorem points_after (order : ByteOrder) (src : Memory) (table : Table rank srcType)
    (shape : SameShape srcType dstType)
    (here : getStructOne srcType pCopy.index = some one) (enough : rank pCopy.index < fuel)
    (out : pCopy.flag = 0) (valid : 0 ≤ pCopy.points)
    (member : call ∈ leafCalls srcType dstType onlyPoints fuel pCopy)
    (point : call.1 = .pointCopy) (inside : k < call.2.num * pointerLen) (b : Buffers) :
    0 ≤ call.2.points ∧ ((leafCalls srcType dstType onlyPoints fuel pCopy).foldl
      (copyStep order src srcType dstType) b).points (slotAddr call + k) =
        src (call.2.src + k) := by
  have leaves : AllLeaves srcType dstType pCopy.flag
      (leafCalls srcType dstType onlyPoints fuel pCopy) := calls_all table shape here
  have handed : (pointers (leafCalls srcType dstType onlyPoints fuel pCopy)).map Prod.snd = _ :=
    slots_of_calls table shape here enough
  obtain ⟨front, rear, calls⟩ := List.append_of_mem member
  rw [calls] at leaves handed
  have once : ((pointers (front ++ call :: rear)).map Prod.snd).Nodup := handed ▸ slots_nodup
  have nonneg : ∀ x ∈ front ++ call :: rear, x.1 = .pointCopy → 0 < x.2.num → 0 ≤ x.2.points := by
    intro x found point' some'
    have slot := slot_mem found point' some'
    rw [handed] at slot
    have low := (mem_slots.mp slot).1
    omega
  have len : pointerLen = 8 := rfl
  have own : 0 ≤ call.2.points := by
    apply nonneg call (List.mem_append_right _ List.mem_cons_self) point
    rw [len] at inside
    omega
  refine ⟨own, ?_⟩
  obtain ⟨leaf, leaf', fine⟩ := leaves call (List.mem_append_right _ List.mem_cons_self)
  rw [out] at fine
  have rest : AllLeaves srcType dstType pCopy.flag rear :=
    fun x found => leaves x (List.mem_append_right _ (List.mem_cons_of_mem _ found))
  rw [calls, List.foldl_append, List.foldl_cons, fold_points_apart rest]
  · exact copyStep_points fine point inside
  · intro x found point' _
    by_contra overlap
    -- a slot of both calls
    have some' : 0 < x.2.num := by
      rw [len] at overlap
      omega
    have own' := nonneg x (List.mem_append_right _ (List.mem_cons_of_mem _ found)) point' some'
    have split : pointers (front ++ call :: rear) =
        pointers front ++ (pointers [call] ++ pointers rear) := by
      simp only [pointers, List.flatMap_append, List.flatMap_cons, List.flatMap_nil,
        List.append_nil]
    rw [split, List.map_append, List.map_append] at once
    have apart := (List.nodup_append.mp (List.nodup_append.mp once).2.1).2.2
    simp only [slotAddr, len] at overlap inside
    have slot := slot_mem (List.mem_singleton.mpr rfl) point (show k / 8 < call.2.num by omega)
    have slot' := slot_mem found point'
      (show (call.2.points + ((k / 8 : Nat) : Int) - x.2.points).toNat < x.2.num by omega)
    have same : x.2.points + ((call.2.points + ((k / 8 : Nat) : Int) - x.2.points).toNat : Int) =
        call.2.points + ((k / 8 : Nat) : Int) := by omega
    rw [same] at slot'
    exact apart _ slot _ slot' rfl

end
end MoonInWater.Sync.Copy
