import Mathlib.Data.List.Basic
import Mathlib.Data.List.Perm.Basic

/-! The heap of moon_max_min_heap.c, an array whose last slot is the place to swap through. -/
namespace MoonInWater.Common.Heap
variable {E : Type}

/-- max_min_heap_s without its elem_size: a slot of `buf` is an element, or not written yet. -/
structure MaxMinHeap (E : Type) where
  isMin : Bool
  buf : List (Option E)
  curBufLen : Nat
  capacity : Nat
  lastElem : Nat

def isSwap (isMin : Bool) (cmp : Int) : Bool := isMin && cmp < 0 || !isMin && 0 < cmp

/-- The element in a slot; none outside the array, or of a slot that is not written. -/
def slot (buf : List (Option E)) (i : Nat) : Option E := (buf[i]?).join

/-- An element copied into a slot; none outside the array. -/
def put (buf : List (Option E)) (i : Nat) (x : E) : Option (List (Option E)) :=
  if i < buf.length then some (buf.set i (some x)) else none

def swap (buf : List (Option E)) (p1 p2 swapBuf : Nat) : Option (List (Option E)) := do
  let buf ← put buf swapBuf (← slot buf p1)
  let buf ← put buf p1 (← slot buf p2)
  put buf p2 (← slot buf swapBuf)

section
variable (compare : E → E → Int)

/-- heap_up from an index on; the parent of an index is computed with `>> 2`. -/
def heapUp (isMin : Bool) (lastElem : Nat) :
    Nat → Nat → List (Option E) → Option (List (Option E))
  | 0, _, _ => none
  | fuel + 1, index, buf =>
    let parentIndex : Int := ((index + 1) / 4 : Nat) - 1
    if 0 ≤ parentIndex then do
      let child ← slot buf index
      let parent ← slot buf parentIndex.toNat
      if isSwap isMin (compare child parent) then do
        let buf ← swap buf index parentIndex.toNat lastElem
        heapUp isMin lastElem fuel parentIndex.toNat buf
      else some buf
    else some buf

/-- A turn over one of the two children, with min_index and p_min. -/
def pickChild (isMin : Bool) (curBufLen childIndex : Nat) (buf : List (Option E)) (i : Nat)
    (min : Nat × E) : Option (Nat × E) :=
  if childIndex + i < curBufLen then do
    let child ← slot buf (childIndex + i)
    some (if isSwap isMin (compare min.2 child) then (childIndex + i, child) else min)
  else some min

/-- heap_down from an index on: it goes down to a child, and moves no element. -/
def heapDown (isMin : Bool) (curBufLen : Nat) :
    Nat → Nat → List (Option E) → Option (List (Option E))
  | 0, _, _ => none
  | fuel + 1, index, buf =>
    let childIndex := 2 * index + 1
    if childIndex < curBufLen then do
      let first ← slot buf index
      let min ← pickChild compare isMin curBufLen childIndex buf 0 (index, first)
      let min ← pickChild compare isMin curBufLen childIndex buf 1 min
      if index = min.1 then some buf else heapDown isMin curBufLen fuel min.1 buf
    else some buf

/-- The reallocation in heap_push, with the memory that it asks for. -/
def grow (h : MaxMinHeap E) : MaxMinHeap E :=
  if h.capacity - 1 ≤ h.curBufLen then
    { h with
      buf := h.buf ++ List.replicate h.capacity none
      capacity := h.capacity * 2
      lastElem := h.capacity * 2 - 1 }
  else h

def heapPush (h : MaxMinHeap E) (x : E) : Option (MaxMinHeap E) := do
  let h := grow h
  let buf ← put h.buf h.curBufLen x
  let buf ← heapUp compare h.isMin h.lastElem (h.curBufLen + 1) h.curBufLen buf
  some { h with buf := buf, curBufLen := h.curBufLen + 1 }

/-- heap_pop, with the element that it copies out; no element when it returns -1. -/
def heapPop (h : MaxMinHeap E) : Option (MaxMinHeap E × Option E) :=
  if h.curBufLen = 0 then some (h, none)
  else do
    let top ← slot h.buf 0
    let curBufLen := h.curBufLen - 1
    if 0 < curBufLen then do
      let buf ← put h.buf 0 (← slot h.buf curBufLen)
      let buf ← heapDown compare h.isMin curBufLen (curBufLen + 1) 0 buf
      some ({ h with buf := buf, curBufLen := curBufLen }, some top)
    else some ({ h with curBufLen := curBufLen }, some top)

end

def heapLength (h : MaxMinHeap E) : Nat := h.curBufLen

def heapTop (h : MaxMinHeap E) : Option (Option E) :=
  if h.curBufLen = 0 then some none else (slot h.buf 0).map some

/-- The elements in the heap. -/
def elements (h : MaxMinHeap E) : List E := (h.buf.take h.curBufLen).reduceOption

/-- The first slots hold these elements, and at least one slot is left. -/
structure Holds (h : MaxMinHeap E) (xs : List E) : Prop where
  buf : ∃ rest, rest ≠ [] ∧ h.buf = xs.map some ++ rest
  len : h.curBufLen = xs.length
  capacity : h.capacity = h.buf.length
  lastElem : h.lastElem = h.capacity - 1

section
variable {xs : List E} {rest : List (Option E)} {i j last : Nat} {x y : E}

theorem slot_elem (found : xs[i]? = some x) : slot (xs.map some ++ rest) i = some x := by
  have inside : i < (xs.map some).length := by
    rw [List.length_map]
    exact (List.getElem?_eq_some_iff.mp found).1
  rw [slot, List.getElem?_append_left inside, List.getElem?_map, found]
  rfl

theorem put_elem (inside : i < xs.length) (x : E) :
    put (xs.map some ++ rest) i x = some ((xs.set i x).map some ++ rest) := by
  rw [put, if_pos (by rw [List.length_append, List.length_map]; omega),
    List.set_append_left _ _ (by rw [List.length_map]; exact inside), List.map_set]

/-- A store behind the elements. -/
theorem put_rest (outside : xs.length ≤ i) (inside : i < xs.length + rest.length) (x : E) :
    put (xs.map some ++ rest) i x =
      some (xs.map some ++ rest.set (i - xs.length) (some x)) := by
  rw [put, if_pos (by rw [List.length_append, List.length_map]; exact inside),
    List.set_append_right _ _ (by rw [List.length_map]; exact outside), List.length_map]

theorem slot_rest (outside : xs.length ≤ i) (inside : i < xs.length + rest.length) (x : E) :
    slot (xs.map some ++ rest.set (i - xs.length) (some x)) i = some x := by
  rw [slot, List.getElem?_append_right (by rw [List.length_map]; exact outside), List.length_map,
    List.getElem?_set_self (by omega)]
  rfl

/-- Two elements are exchanged through a slot behind them all. -/
theorem swap_elems (first : xs[i]? = some x) (second : xs[j]? = some y)
    (outside : xs.length ≤ last) (inside : last < xs.length + rest.length) :
    ∃ rest', swap (xs.map some ++ rest) i j last =
        some (((xs.set i y).set j x).map some ++ rest') ∧ rest'.length = rest.length := by
  have place := (List.getElem?_eq_some_iff.mp first).1
  have place' := (List.getElem?_eq_some_iff.mp second).1
  refine ⟨rest.set (last - xs.length) (some x), ?_, List.length_set⟩
  have size : (xs.set i y).length = xs.length := List.length_set
  have saved : slot ((xs.set i y).map some ++ rest.set (last - (xs.set i y).length) (some x)) last =
      some x := slot_rest (by rw [size]; exact outside) (by rw [size]; exact inside) x
  rw [size] at saved
  simp only [swap, slot_elem first, Option.bind_eq_bind, Option.bind_some,
    put_rest outside inside, slot_elem second, put_elem place, saved]
  exact put_elem (by rw [size]; exact place') x

/-- The exchange of two elements of a list. -/
theorem exchange_perm (first : xs[i]? = some x) (second : xs[j]? = some y) :
    ((xs.set i y).set j x).Perm xs := by
  obtain ⟨place, rfl⟩ := List.getElem?_eq_some_iff.mp first
  obtain ⟨place', rfl⟩ := List.getElem?_eq_some_iff.mp second
  exact List.set_set_perm place place'

end

/-- heap_up comes from this index to the root if it is not stopped before. -/
def OnPath (index : Nat) : Prop := Nat.log2 (index + 1) % 2 = 0

instance (index : Nat) : Decidable (OnPath index) := inferInstanceAs (Decidable (_ = _))

theorem onPath_parent {index : Nat} (deep : 3 ≤ index) :
    OnPath ((index + 1) / 4 - 1) ↔ OnPath index := by
  have quarter : (index + 1) / 4 - 1 + 1 = (index + 1) / 2 / 2 := by omega
  have steps : Nat.log2 (index + 1) = Nat.log2 ((index + 1) / 2 / 2) + 1 + 1 := by
    rw [Nat.log2_def, if_pos (by omega), Nat.log2_def ((index + 1) / 2), if_pos (by omega)]
  unfold OnPath
  rw [quarter, steps]
  omega

section
variable {compare : E → E → Int} {isMin : Bool} {fuel index last : Nat} {c : E}

/-- heap_up permutes the elements. It leaves the root, or puts the element there with which it
started; this it does whenever that one goes before all the others on an index of the path. -/
theorem heapUp_elems (compare : E → E → Int) (isMin : Bool) (last : Nat) {xs : List E}
    (rest : List (Option E)) (found : xs[index]? = some c) (enough : index < fuel)
    (outside : xs.length ≤ last)
    (inside : last < xs.length + rest.length) :
    ∃ (ys : List E) (rest' : List (Option E)),
      heapUp compare isMin last fuel index (xs.map some ++ rest) = some (ys.map some ++ rest') ∧
      rest'.length = rest.length ∧ ys.Perm xs ∧
      (ys[0]? = xs[0]? ∨ ys[0]? = some c ∧ OnPath index ∧
        ∃ root, xs[0]? = some root ∧ isSwap isMin (compare c root) = true) ∧
      (OnPath index → (∀ j < index, ∀ y, xs[j]? = some y → isSwap isMin (compare c y) = true) →
        ys[0]? = some c) := by
  induction fuel generalizing index xs rest with
  | zero => omega
  | succ fuel ih =>
    by_cases deep : 3 ≤ index
    · -- the element is compared with that of the parent's index
      obtain ⟨p, place⟩ : ∃ p, (index + 1) / 4 - 1 = p := ⟨_, rfl⟩
      have size := (List.getElem?_eq_some_iff.mp found).1
      obtain ⟨q, found'⟩ : ∃ q, xs[p]? = some q := ⟨xs[p], List.getElem?_eq_getElem (by omega)⟩
      have parent : (((index + 1) / 4 : Nat) : Int) - 1 = p := by omega
      have path : OnPath p ↔ OnPath index := place ▸ onPath_parent deep
      rw [heapUp, parent, if_pos (Int.natCast_nonneg p)]
      simp only [Int.toNat_natCast, slot_elem found, slot_elem found', Option.bind_eq_bind,
        Option.bind_some]
      by_cases less : isSwap isMin (compare c q) = true
      · obtain ⟨rest', swapped, restSize⟩ := swap_elems found found' outside inside
        have moved : ((xs.set index q).set p c)[p]? = some c :=
          List.getElem?_set_self (by rw [List.length_set]; omega)
        have apart : ∀ j, j < index → j ≠ p → ((xs.set index q).set p c)[j]? = xs[j]? := by
          intro j before other
          rw [List.getElem?_set_ne (Ne.symm other), List.getElem?_set_ne (by omega)]
        obtain ⟨ys, rest'', ran, restSize', perm, root, first⟩ := ih rest' moved (by omega)
          (by simpa using outside) (by rw [restSize]; simpa using inside)
        rw [if_pos less, swapped, Option.bind_some]
        refine ⟨ys, rest'', ran, restSize'.trans restSize,
          perm.trans (exchange_perm found found'), ?_, ?_⟩
        · by_cases top : p = 0
          · have ends : ys[0]? = some c := by
              rcases root with same | ⟨there, _⟩
              · rw [same, ← top]
                exact moved
              · exact there
            exact .inr ⟨ends, path.mp (top ▸ rfl), q, top ▸ found', less⟩
          · rw [apart 0 (by omega) (Ne.symm top)] at root
            rcases root with same | ⟨there, onPath, rest⟩
            · exact .inl same
            · exact .inr ⟨there, path.mp onPath, rest⟩
        · intro onPath before
          apply first (path.mpr onPath)
          intro j lower y there
          rw [apart j (by omega) (by omega)] at there
          exact before j (by omega) y there
      · rw [if_neg less]
        refine ⟨xs, rest, rfl, rfl, .refl xs, .inl rfl, fun _ before => ?_⟩
        exact absurd (before p (by omega) q found') less
    · refine ⟨xs, rest, ?_, rfl, .refl xs, .inl rfl, fun path before => ?_⟩
      · rw [heapUp, if_neg (by omega)]
      · have top : index = 0 := by
          have small : ∀ n < 3, OnPath n → n = 0 := by decide
          exact small index (by omega) path
        rw [← top]
        exact found

theorem pickChild_elem (compare : E → E → Int) (isMin : Bool) (xs : List E)
    (rest : List (Option E)) (childIndex i : Nat) (min : Nat × E) :
    ∃ min', pickChild compare isMin xs.length childIndex (xs.map some ++ rest) i min =
        some min' ∧ (min' = min ∨ min'.1 = childIndex + i ∧ childIndex + i < xs.length) := by
  unfold pickChild
  by_cases inside : childIndex + i < xs.length
  · have found : xs[childIndex + i]? = some xs[childIndex + i] :=
      List.getElem?_eq_getElem inside
    rw [if_pos inside, slot_elem found]
    refine ⟨_, rfl, ?_⟩
    split
    · exact .inr ⟨rfl, inside⟩
    · exact .inl rfl
  · exact ⟨min, if_neg inside, .inl rfl⟩

/-- heap_down ends and leaves all the elements where they are. -/
theorem heapDown_same {xs : List E} {rest : List (Option E)} (inside : index < xs.length)
    (enough : xs.length - index < fuel) :
    heapDown compare isMin xs.length fuel index (xs.map some ++ rest) =
      some (xs.map some ++ rest) := by
  induction fuel generalizing index with
  | zero => omega
  | succ fuel ih =>
    rw [heapDown]
    by_cases child : 2 * index + 1 < xs.length
    · have found : xs[index]? = some xs[index] := List.getElem?_eq_getElem inside
      obtain ⟨min, picked, which⟩ :=
        pickChild_elem compare isMin xs rest (2 * index + 1) 0 (index, xs[index])
      obtain ⟨min', picked', which'⟩ :=
        pickChild_elem compare isMin xs rest (2 * index + 1) 1 min
      rw [if_pos child]
      simp only [slot_elem found, picked, picked', Option.bind_eq_bind, Option.bind_some]
      by_cases stays : index = min'.1
      · rw [if_pos stays]
      · rw [if_neg stays]
        have down : index < min'.1 ∧ min'.1 < xs.length := by
          rcases which' with rfl | ⟨place, less⟩
          · rcases which with rfl | ⟨place, less⟩
            · exact absurd rfl stays
            · omega
          · omega
        exact ih down.2 (by omega)
    · rw [if_neg child]

end

section
variable {compare : E → E → Int} {h : MaxMinHeap E} {xs mid : List E} {r l x c : E}

theorem Holds.elements (holds : Holds h xs) : elements h = xs := by
  obtain ⟨rest, _, buf⟩ := holds.buf
  have front : (xs.map some ++ rest).take xs.length = xs.map some :=
    List.take_left' (List.length_map ..)
  rw [Heap.elements, holds.len, buf, front]
  change (xs.map some).filterMap id = xs
  simp

theorem grow_holds (holds : Holds h xs) :
    Holds (grow h) xs ∧ xs.length < (grow h).capacity - 1 ∧ (grow h).isMin = h.isMin := by
  obtain ⟨rest, left, buf⟩ := holds.buf
  have room := List.length_pos_iff.mpr left
  have size := congrArg List.length buf
  rw [List.length_append, List.length_map, ← holds.capacity] at size
  unfold grow
  split
  next full =>
    refine ⟨⟨⟨rest ++ List.replicate h.capacity none, ?_, ?_⟩, holds.len, ?_, rfl⟩, ?_, rfl⟩
    · simp [left]
    · rw [buf, List.append_assoc]
    · change h.capacity * 2 = (h.buf ++ List.replicate h.capacity none).length
      rw [List.length_append, List.length_replicate, ← holds.capacity]
      omega
    · rw [holds.len] at full
      change xs.length < h.capacity * 2 - 1
      omega
  next wide =>
    rw [holds.len] at wide
    exact ⟨holds, by omega, rfl⟩

/-- heap_push adds its element, and may put it at the root. -/
theorem heapPush_elems (holds : Holds h xs) (x : E) :
    ∃ h' ys, heapPush compare h x = some h' ∧ Holds h' ys ∧ h'.isMin = h.isMin ∧
      ys.Perm (xs ++ [x]) ∧
      (ys[0]? = (xs ++ [x])[0]? ∨ ys[0]? = some x ∧ OnPath xs.length ∧
        ∃ root, (xs ++ [x])[0]? = some root ∧ isSwap h.isMin (compare x root) = true) ∧
      (OnPath xs.length → (∀ y ∈ xs, isSwap h.isMin (compare x y) = true) →
        ys[0]? = some x) := by
  obtain ⟨grown, room, mode⟩ := grow_holds holds
  generalize big : grow h = g at grown room mode
  obtain ⟨rest, left, buf⟩ := grown.buf
  obtain ⟨free, rest, rfl⟩ := List.exists_cons_of_ne_nil left
  have size := congrArg List.length buf
  rw [List.length_append, List.length_map, List.length_cons, ← grown.capacity] at size
  have stored : put g.buf g.curBufLen x = some ((xs ++ [x]).map some ++ rest) := by
    rw [buf, grown.len, put_rest (Nat.le_refl _) (by simp), Nat.sub_self]
    simp
  have last := grown.lastElem
  have found : (xs ++ [x])[xs.length]? = some x := by simp
  have length : (xs ++ [x]).length = xs.length + 1 := by simp
  obtain ⟨ys, rest', ran, restSize, perm, root, first⟩ :=
    heapUp_elems compare g.isMin g.lastElem rest found (Nat.lt_succ_self xs.length) (by omega)
      (by omega)
  have total := perm.length_eq
  rw [mode] at root first
  refine ⟨{ g with buf := ys.map some ++ rest', curBufLen := g.curBufLen + 1 }, ys, ?_, ?_, mode,
    perm, root, fun onPath before => first onPath fun j less y there => before y ?_⟩
  · simp only [heapPush, big, stored, Option.bind_eq_bind, Option.bind_some]
    rw [grown.len, ran]
    rfl
  · refine ⟨⟨rest', ?_, rfl⟩, ?_, ?_, last⟩
    · intro nothing
      rw [nothing, List.length_nil] at restSize
      omega
    · rw [total, length, ← grown.len]
    · simp only [List.length_append, List.length_map]
      omega
  · rw [List.getElem?_append_left less] at there
    exact List.mem_of_getElem? there

/-- heap_pop copies the root out and puts the last element in its place. -/
theorem heapPop_more (compare : E → E → Int) (holds : Holds h (r :: (mid ++ [l]))) :
    ∃ h', heapPop compare h = some (h', some r) ∧ Holds h' (l :: mid) ∧ h'.isMin = h.isMin := by
  obtain ⟨rest, left, buf⟩ := holds.buf
  have len := holds.len
  have size := holds.capacity
  rw [List.length_cons, List.length_append, List.length_singleton] at len
  have top : slot h.buf 0 = some r := by
    rw [buf]
    exact slot_elem rfl
  have final : slot h.buf (mid.length + 1) = some l := by
    rw [buf]
    exact slot_elem (by simp)
  have stored : put h.buf 0 l = some ((l :: mid).map some ++ (some l :: rest)) := by
    rw [buf, put_elem (by simp)]
    simp
  have down : heapDown compare h.isMin (l :: mid).length (mid.length + 1 + 1) 0
      ((l :: mid).map some ++ (some l :: rest)) = some ((l :: mid).map some ++ (some l :: rest)) :=
    heapDown_same (by simp) (by simp)
  rw [List.length_cons] at down
  refine ⟨{ h with buf := (l :: mid).map some ++ (some l :: rest), curBufLen := mid.length + 1 },
    ?_, ⟨⟨some l :: rest, by simp, rfl⟩, rfl, ?_, holds.lastElem⟩, rfl⟩
  · have fewer : mid.length + 1 + 1 - 1 = mid.length + 1 := rfl
    simp only [heapPop, len, top, fewer, final, stored, down, Option.bind_eq_bind,
      Option.bind_some]
    rw [if_neg (by omega), if_pos (by omega)]
  · rw [size, buf]
    simp only [List.length_append, List.length_map, List.length_cons, List.length_nil]
    omega

theorem heapPop_last (compare : E → E → Int) (holds : Holds h [r]) :
    ∃ h', heapPop compare h = some (h', some r) ∧ Holds h' [] ∧ h'.isMin = h.isMin := by
  obtain ⟨rest, left, buf⟩ := holds.buf
  have top : slot h.buf 0 = some r := by
    rw [buf]
    exact slot_elem rfl
  have len : h.curBufLen = 1 := holds.len
  refine ⟨{ h with curBufLen := 0 }, ?_,
    ⟨⟨some r :: rest, by simp, buf⟩, rfl, holds.capacity, holds.lastElem⟩, rfl⟩
  simp only [heapPop, len, top, Option.bind_eq_bind, Option.bind_some]
  rfl

end
end MoonInWater.Common.Heap
