import MoonInWater.Sync.StructTable
import Mathlib.Data.List.Nodup

/-! The form of a struct table on the wire, and the table that the other side makes of it. -/
namespace MoonInWater.Sync.StructTable
open CInt Endian
variable {mem mem' : Memory} {all : StructAll} {ps qs : List Nat} {ones ones' : List StructOne}

/-- The types of a table stand one behind the other in its block, with their fields. -/
def Laid (mem : Memory) : Nat → List Nat → List StructOne → Nat → Prop
  | start, [], [], stop => start = stop
  | start, p :: ps, one :: ones, stop => p = start ∧ mem p = some one ∧
      Laid mem (start + (structOneLen + one.vars.length * varLen)) ps ones stop
  | _, _, _, _ => False

/-- A table with its types; the type of each field is one of them. -/
structure Table (mem : Memory) (all : StructAll) (ones : List StructOne) : Prop where
  laid : Laid mem (all.base + structAllLen + all.ones.length * pointerLen) all.ones ones
    (all.base + all.size)
  closed : ∀ one ∈ ones, ∀ v ∈ one.vars, v.typeNum < ones.length

/-- The types at some places of the memory, each at one. -/
structure Holds (mem : Memory) (ps : List Nat) (ones : List StructOne) : Prop where
  types : ps.map mem = ones.map some
  distinct : ps.Nodup

theorem Laid.bounds {start stop : Nat} (laid : Laid mem start ps ones stop) :
    start ≤ stop ∧ ps.Pairwise (· < ·) ∧ (∀ p ∈ ps, start ≤ p ∧ p < stop) ∧
      ps.map mem = ones.map some := by
  induction ps generalizing start ones with
  | nil =>
    cases ones with
    | nil => exact ⟨Nat.le_of_eq laid, .nil, by simp, rfl⟩
    | cons one ones => exact laid.elim
  | cons p ps ih =>
    cases ones with
    | nil => exact laid.elim
    | cons one ones =>
      obtain ⟨rfl, here, rest⟩ := laid
      obtain ⟨le, order, inside, types⟩ := ih rest
      have room : 0 < structOneLen := by decide
      refine ⟨by omega, List.pairwise_cons.mpr ⟨?_, order⟩, ?_, ?_⟩
      · intro q member
        have := inside q member
        omega
      · intro q member
        rcases List.mem_cons.mp member with rfl | behind
        · omega
        · have := inside q behind
          omega
      · rw [List.map_cons, List.map_cons, here, types]

theorem Laid.holds {start stop : Nat} (laid : Laid mem start ps ones stop) : Holds mem ps ones :=
  ⟨laid.bounds.2.2.2, laid.bounds.2.1.imp fun less => Nat.ne_of_lt less⟩

theorem Holds.length (holds : Holds mem ps ones) : ps.length = ones.length := by
  have same := congrArg List.length holds.types
  simpa only [List.length_map] using same

theorem Holds.cons_iff {p : Nat} {one : StructOne} :
    Holds mem (p :: ps) (one :: ones) ↔ mem p = some one ∧ p ∉ ps ∧ Holds mem ps ones := by
  constructor
  · rintro ⟨types, distinct⟩
    obtain ⟨here, rest⟩ := List.cons.inj types
    obtain ⟨outside, distinct⟩ := List.nodup_cons.mp distinct
    exact ⟨here, outside, rest, distinct⟩
  · rintro ⟨here, outside, rest, distinct⟩
    refine ⟨?_, List.nodup_cons.mpr ⟨outside, distinct⟩⟩
    rw [List.map_cons, List.map_cons, here, rest]

/-- A table has the types that stand at its places, whatever else is in the memory. -/
theorem Laid.congr {start stop : Nat} (laid : Laid mem start ps ones stop)
    (types : ps.map mem' = ones'.map some)
    (sizes : ones'.map (·.vars.length) = ones.map (·.vars.length)) :
    Laid mem' start ps ones' stop := by
  induction ps generalizing start ones ones' with
  | nil =>
    cases ones with
    | nil =>
      cases ones' with
      | nil => exact laid
      | cons one' ones' => simp at types
    | cons one ones => exact laid.elim
  | cons p ps ih =>
    cases ones with
    | nil => exact laid.elim
    | cons one ones =>
      cases ones' with
      | nil => simp at types
      | cons one' ones' =>
        obtain ⟨rfl, _, rest⟩ := laid
        obtain ⟨here, types⟩ := List.cons.inj types
        obtain ⟨size, sizes⟩ := List.cons.inj sizes
        have size : one'.vars.length = one.vars.length := size
        refine ⟨rfl, here, ?_⟩
        rw [size]
        exact ih rest types sizes

/-- The copy of a table in another block. -/
theorem relocate_laid {start stop : Nat} (base dst : Nat) (laid : Laid mem start ps ones stop)
    (above : base ≤ start)
    (copied : ∀ p, start ≤ p → p < stop → mem' (dst + (p - base)) = mem p) :
    Laid mem' (dst + (start - base)) (relocate (dst + (start - base)) ps) ones
      (dst + (stop - base)) := by
  induction ps generalizing start ones with
  | nil =>
    cases ones with
    | nil =>
      obtain rfl : start = stop := laid
      rfl
    | cons one ones => exact laid.elim
  | cons p ps ih =>
    cases ones with
    | nil => exact laid.elim
    | cons one ones =>
      obtain ⟨rfl, here, rest⟩ := laid
      have room : 0 < structOneLen := by decide
      have le := rest.bounds.1
      have there : mem' (dst + (p - base)) = some one := by
        rw [copied p (Nat.le_refl _) (by omega), here]
      have next := ih rest (by omega) fun q low high => copied q (by omega) high
      have shift : dst + (p + (structOneLen + one.vars.length * varLen) - base) =
          dst + (p - base) + (structOneLen + one.vars.length * varLen) := by omega
      rw [shift] at next
      cases ps with
      | nil => exact ⟨rfl, there, next⟩
      | cons q ps =>
        cases ones with
        | nil => exact rest.elim
        | cons two ones =>
          have gap : q - p = structOneLen + one.vars.length * varLen := by
            have := rest.1
            omega
          rw [relocate, gap]
          exact ⟨rfl, there, next⟩

/-- Two blocks that share no byte. -/
def Apart (base size base' size' : Nat) : Prop := base + size ≤ base' ∨ base' + size' ≤ base

/-- The memory behind the memcpy of dump_struct_all. -/
def copied (mem : Memory) (all : StructAll) (base : Nat) : Memory := fun p =>
  if base ≤ p ∧ p < base + all.size then mem (all.base + (p - base)) else mem p

theorem copied_block {base p : Nat} (low : all.base ≤ p) (high : p < all.base + all.size) :
    copied mem all base (base + (p - all.base)) = mem p := by
  rw [copied, if_pos (by omega)]
  congr 1
  omega

/-- dump_struct_all makes a table of the same types, and leaves the source alone. -/
theorem dump_table {base : Nat} (table : Table mem all ones) (some' : ones ≠ [])
    (apart : Apart all.base all.size base all.size) :
    ∃ mem' dst, dumpStructAll mem all base = some (mem', dst) ∧ Table mem' dst ones ∧
      dst.base = base ∧ dst.size = all.size ∧
      ∀ p, all.base ≤ p → p < all.base + all.size → mem' p = mem p := by
  have length := table.laid.holds.length
  have bounds := table.laid.bounds
  have count : 0 < all.ones.length := by
    rw [length]
    exact List.length_pos_of_ne_nil some'
  rw [dumpStructAll, if_neg (by omega)]
  refine ⟨copied mem all base, _, rfl, ⟨?_, table.closed⟩, rfl, rfl, ?_⟩
  · have relocated := relocate_laid all.base base table.laid (by omega) fun p low high =>
      copied_block (by omega) high
    have start : base + (all.base + structAllLen + all.ones.length * pointerLen - all.base) =
        base + structAllLen + all.ones.length * pointerLen := by omega
    have stop : base + (all.base + all.size - all.base) = base + all.size := by omega
    rw [start, stop] at relocated
    have same : (relocate (base + structAllLen + all.ones.length * pointerLen) all.ones).length =
        all.ones.length := by rw [relocated.holds.length, length]
    dsimp only
    rw [same]
    exact relocated
  · intro p low high
    rcases apart with before | behind
    · exact if_neg (by omega)
    · exact if_neg (by omega)

section words
variable {order : ByteOrder} {buf : List Word}

/-- A number as it stands on the wire. -/
def wireWord (order : ByteOrder) (x : Int) : Word := store32 order (convert32 order (u32 x).toNat)

/-- The address of the first field, which stands for all. -/
def firstAddr (one : StructOne) : Int := (one.vars.head?.map (·.addr)).getD 0

/-- The addresses of the fields of a type, as they are written. -/
def addrWords (order : ByteOrder) (one : StructOne) : List Word :=
  List.replicate one.vars.length (wireWord order (firstAddr one))

def tableWords (order : ByteOrder) (ones : List StructOne) : List Word :=
  ones.map (fun one => wireWord order one.size) ++ ones.flatMap (addrWords order)

variable (order) in
theorem bufLen_eq (types : ps.map mem = ones.map some) :
    getStructAllToBufLen mem ps = some (tableWords order ones).length := by
  induction ps generalizing ones with
  | nil =>
    cases ones with
    | nil => rfl
    | cons one ones => simp at types
  | cons p ps ih =>
    cases ones with
    | nil => simp at types
    | cons one ones =>
      obtain ⟨here, types⟩ := List.cons.inj types
      rw [getStructAllToBufLen, here, ih types]
      simp [tableWords, addrWords]
      omega

theorem storeWord_at {front rear : List Word} {w : Word} {i : Nat} {x : Int}
    (place : i = front.length) :
    storeWord (front ++ w :: rear) i order x = some (front ++ wireWord order x :: rear) := by
  rw [storeWord, if_pos (by simp [place])]
  simp [place, wireWord]

variable (order) in
theorem writeVars_eq {one : StructOne} (front room rear : List Word) {i n : Nat}
    (place : i = front.length) (size : room.length = n) (le : n ≤ one.vars.length) :
    writeVars order one n i (front ++ room ++ rear) =
      some (front ++ List.replicate n (wireWord order (firstAddr one)) ++ rear) := by
  induction n generalizing front room i with
  | zero => simp [writeVars, List.length_eq_zero_iff.mp size]
  | succ n ih =>
    cases room with
    | nil => simp at size
    | cons w room =>
      cases vars : one.vars with
      | nil =>
        rw [vars] at le
        simp at le
      | cons v vs =>
        have first : firstAddr one = v.addr := by rw [firstAddr, vars]; rfl
        have shape : front ++ w :: room ++ rear = front ++ w :: (room ++ rear) := by simp
        have next := ih (front ++ [wireWord order v.addr]) room (i := i + 1) (by simp [place])
          (by simpa using size) (by omega)
        rw [writeVars, vars]
        simp only [List.head?_cons, Option.bind_eq_bind, Option.bind_some]
        rw [shape, storeWord_at place, Option.bind_some]
        simp only [List.append_assoc, List.cons_append, List.nil_append] at next ⊢
        rw [next, first, List.replicate_succ]
        simp

variable (order) in
theorem writeOnes_eq (sizes gap addrs room : List Word) {i j : Nat}
    (types : ps.map mem = ones.map some) (place : i = sizes.length) (count : gap.length = ps.length)
    (place' : j = (sizes ++ gap ++ addrs).length)
    (size : room.length = (ones.flatMap (addrWords order)).length) :
    writeOnes order mem ps i j (sizes ++ gap ++ addrs ++ room) =
      some (sizes ++ ones.map (fun one => wireWord order one.size) ++ addrs ++
        ones.flatMap (addrWords order)) := by
  induction ps generalizing ones sizes gap addrs room i j with
  | nil =>
    cases ones with
    | nil =>
      have none : gap = [] := List.length_eq_zero_iff.mp count
      have none' : room = [] := List.length_eq_zero_iff.mp size
      simp [writeOnes, none, none']
    | cons one ones => simp at types
  | cons p ps ih =>
    cases ones with
    | nil => simp at types
    | cons one ones =>
      obtain ⟨here, types⟩ := List.cons.inj types
      cases gap with
      | nil => simp at count
      | cons g gap =>
        have words : (addrWords order one).length = one.vars.length := List.length_replicate
        rw [List.flatMap_cons, List.length_append, words] at size
        obtain ⟨own, room, rfl, ownSize⟩ : ∃ own rest, room = own ++ rest ∧
            own.length = one.vars.length :=
          ⟨room.take one.vars.length, room.drop one.vars.length, (List.take_append_drop ..).symm,
            List.length_take_of_le (by omega)⟩
        -- the size goes to its place, then the addresses behind those written so far
        have shape : sizes ++ g :: gap ++ addrs ++ (own ++ room) =
            sizes ++ g :: (gap ++ addrs ++ (own ++ room)) := by simp
        have front : sizes ++ wireWord order one.size :: (gap ++ addrs ++ (own ++ room)) =
            sizes ++ [wireWord order one.size] ++ gap ++ addrs ++ own ++ room := by simp
        have written := writeVars_eq order
          (sizes ++ [wireWord order one.size] ++ gap ++ addrs) own room (i := j)
          (by simp [place']) ownSize (Nat.le_refl _)
        rw [← addrWords] at written
        have next := ih (sizes ++ [wireWord order one.size]) gap (addrs ++ addrWords order one) room
          (i := i + 1) (j := j + one.vars.length) types (by simp [place]) (by simpa using count)
          (by simp [place', words]; omega) (by simp at size ⊢; omega)
        have join : sizes ++ [wireWord order one.size] ++ gap ++ addrs ++ addrWords order one ++
            room = sizes ++ [wireWord order one.size] ++ gap ++ (addrs ++ addrWords order one) ++
              room := by simp
        rw [writeOnes, here]
        simp only [Option.bind_eq_bind, Option.bind_some]
        rw [shape, storeWord_at place, Option.bind_some, front, written, Option.bind_some, join,
          next]
        simp

variable (order) in
/-- convert_struct_all_to_buf puts the sizes of all types first, and then the addresses. -/
theorem convertStructAllToBuf_eq (junk : Word) (types : all.ones.map mem = ones.map some) :
    convertStructAllToBuf order mem all junk = some (tableWords order ones) := by
  have length := congrArg List.length types
  simp only [List.length_map] at length
  have parts : List.replicate (tableWords order ones).length junk =
      [] ++ List.replicate all.ones.length junk ++ [] ++
        List.replicate (ones.flatMap (addrWords order)).length junk := by
    simp [tableWords, length, List.replicate_append_replicate]
  rw [convertStructAllToBuf, bufLen_eq order types]
  simp only [Option.bind_eq_bind, Option.bind_some]
  have written := writeOnes_eq order [] (List.replicate all.ones.length junk) []
    (List.replicate (ones.flatMap (addrWords order)).length junk) (i := 0) (j := all.ones.length)
    types rfl (by simp) (by simp) (by simp)
  rw [parts, written]
  simp [tableWords]

end words

/-- An `int`. -/
def IsInt (x : Int) : Prop := -2 ^ 31 ≤ x ∧ x < 2 ^ 31

theorem loadWord_wire {x : Int} (int : IsInt x) (source dest : ByteOrder) :
    loadWord dest (wireWord source x) = x := by
  obtain ⟨low, high⟩ := int
  have small : (u32 x).toNat < 2 ^ 32 := by
    simp only [u32]
    omega
  rw [loadWord, wireWord, wire32 source dest small]
  simp only [u32, i32]
  omega

@[simp] theorem set_self (mem : Memory) (p : Nat) (one : StructOne) :
    set mem p one p = some one := Function.update_self ..

theorem set_other {p q : Nat} {one : StructOne} (other : q ≠ p) : set mem p one q = mem q :=
  Function.update_of_ne other ..

theorem Holds.set_outside {p : Nat} (one : StructOne) (holds : Holds mem ps ones)
    (outside : p ∉ ps) : Holds (set mem p one) ps ones := by
  refine ⟨?_, holds.distinct⟩
  rw [← holds.types]
  apply List.map_congr_left
  intro q member
  exact set_other fun same => outside (same ▸ member)

/-- The same type with another size. -/
def resize (one other : StructOne) : StructOne := { one with size := other.size }

theorem readSizes_eq (source dest : ByteOrder) (rest : List Word) (holds : Holds mem ps ones)
    (length : ones.length = ones'.length) (int : ∀ one ∈ ones', IsInt one.size) :
    ∃ mem', readSizes dest ps (ones'.map (fun one => wireWord source one.size) ++ rest) mem =
        some (rest, mem') ∧ Holds mem' ps (List.zipWith resize ones ones') ∧
      ∀ p, p ∉ ps → mem' p = mem p := by
  induction ps generalizing mem ones ones' with
  | nil =>
    have none : ones = [] := List.length_eq_zero_iff.mp holds.length.symm
    subst none
    have none' : ones' = [] := List.length_eq_zero_iff.mp length.symm
    subst none'
    exact ⟨mem, rfl, holds, fun _ _ => rfl⟩
  | cons p ps ih =>
    cases ones with
    | nil =>
      have := holds.length
      simp at this
    | cons one ones =>
      cases ones' with
      | nil => simp at length
      | cons other ones' =>
        obtain ⟨here, outside, holds⟩ := Holds.cons_iff.mp holds
        obtain ⟨mem', ran, held, frame⟩ := ih
          (holds.set_outside (resize one other) outside) (by simpa using length)
          fun one member => int one (List.mem_cons_of_mem _ member)
        have size := loadWord_wire (int other List.mem_cons_self) source dest
        refine ⟨mem', ?_, Holds.cons_iff.mpr ⟨?_, outside, held⟩, ?_⟩
        · simp only [List.map_cons, List.cons_append, readSizes, here, Option.bind_eq_bind,
            Option.bind_some, size]
          exact ran
        · rw [frame p outside, set_self]
        · intro q member
          obtain ⟨other, behind⟩ := not_or.mp (List.mem_cons.not.mp member)
          rw [frame q behind, set_other other]

def sizeOf (ones : List StructOne) (t : Nat) : Int := (ones[t]?.map (·.size)).getD 0

/-- The field with an address and with the sizes that follow from those of the types. -/
def place (ones : List StructOne) (v : Var) (addr : Int) : Var :=
  { v with
    addr := addr
    arrayElemSize := sizeOf ones v.typeNum
    size := i32 (v.len * sizeOf ones v.typeNum) }

/-- The type with its first field placed. -/
def placeFirst (sizes : List StructOne) (one other : StructOne) : StructOne :=
  match one.vars with
  | [] => one
  | v :: vs => { one with vars := place sizes v (firstAddr other) :: vs }

/-- The places hold types of the given sizes. -/
def Sized (mem : Memory) (all : List Nat) (sizes : List StructOne) : Prop :=
  ∀ (t p : Nat), all[t]? = some p → ∃ one, mem p = some one ∧ one.size = sizeOf sizes t

theorem Sized.set {p : Nat} {all : List Nat} {sizes : List StructOne} {one one' : StructOne}
    (sized : Sized mem all sizes) (here : mem p = some one) (same : one'.size = one.size) :
    Sized (set mem p one') all sizes := by
  intro t q found
  obtain ⟨elem, there, size⟩ := sized t q found
  by_cases self : q = p
  · subst self
    cases here.symm.trans there
    exact ⟨one', set_self .., same.trans size⟩
  · exact ⟨elem, (set_other self).trans there, size⟩

section receive
variable {source dest : ByteOrder} {places : List Nat} {sizes : List StructOne}

/-- Each turn of the loop over the fields places the first one, at the same address. -/
theorem readVars_eq {p n : Nat} {one : StructOne} {v : Var} {vs : List Var} {rest : List Word}
    {addr : Int} (sized : Sized mem places sizes) (here : mem p = some one)
    (vars : one.vars = v :: vs) (typed : v.typeNum < places.length) (int : IsInt addr) :
    readVars dest places p (n + 1)
        (List.replicate (n + 1) (wireWord source addr) ++ rest) mem =
      some (rest, set mem p { one with vars := place sizes v addr :: vs }) := by
  have turn : ∀ (mem : Memory) (one : StructOne) (v : Var) (k : Nat), Sized mem places sizes →
      mem p = some one → one.vars = v :: vs → v.typeNum < places.length →
      readVars dest places p (k + 1) (List.replicate (k + 1) (wireWord source addr) ++ rest) mem =
        readVars dest places p k (List.replicate k (wireWord source addr) ++ rest)
          (set mem p { one with vars := place sizes v addr :: vs }) := by
    intro mem one v k sized here vars typed
    obtain ⟨elem, there, size⟩ := sized v.typeNum _ (List.getElem?_eq_getElem typed)
    rw [List.replicate_succ, List.cons_append]
    simp only [readVars, here, vars, List.head?_cons, List.tail_cons, Option.bind_eq_bind,
      Option.bind_some, List.getElem?_eq_getElem typed, there, size, loadWord_wire int]
    rfl
  induction n generalizing mem one v with
  | zero =>
    rw [turn mem one v 0 sized here vars typed]
    rfl
  | succ n ih =>
    rw [turn mem one v (n + 1) sized here vars typed]
    have again : place sizes (place sizes v addr) addr = place sizes v addr := rfl
    have next := @ih (set mem p { one with vars := place sizes v addr :: vs })
      { one with vars := place sizes v addr :: vs } (place sizes v addr)
      (sized.set here rfl) (set_self ..) rfl typed
    rw [next, again]
    simp only [set, Function.update_idem]

variable (source dest) in
theorem readOnes_eq (holds : Holds mem ps ones) (sized : Sized mem places sizes)
    (counts : ones.map (·.vars.length) = ones'.map (·.vars.length))
    (typed : ∀ one ∈ ones, ∀ v ∈ one.vars, v.typeNum < places.length)
    (int : ∀ one ∈ ones', IsInt (firstAddr one)) :
    ∃ mem', readOnes dest places ps (ones'.flatMap (addrWords source)) mem = some mem' ∧
      Holds mem' ps (List.zipWith (placeFirst sizes) ones ones') ∧
      ∀ p, p ∉ ps → mem' p = mem p := by
  induction ps generalizing mem ones ones' with
  | nil =>
    have none : ones = [] := List.length_eq_zero_iff.mp holds.length.symm
    subst none
    exact ⟨mem, rfl, ⟨rfl, .nil⟩, fun _ _ => rfl⟩
  | cons p ps ih =>
    cases ones with
    | nil =>
      have := holds.length
      simp at this
    | cons one ones =>
      cases ones' with
      | nil => simp at counts
      | cons other ones' =>
        obtain ⟨here, outside, holds⟩ := Holds.cons_iff.mp holds
        obtain ⟨count, counts⟩ := List.cons.inj counts
        have typedRest := fun one member => typed one (List.mem_cons_of_mem _ member)
        have intRest := fun one member => int one (List.mem_cons_of_mem _ member)
        have read : readVars dest places p one.vars.length
            (addrWords source other ++ ones'.flatMap (addrWords source)) mem =
              some (ones'.flatMap (addrWords source), set mem p (placeFirst sizes one other)) := by
          rw [addrWords, ← show one.vars.length = other.vars.length from count]
          cases vars : one.vars with
          | nil =>
            have same : placeFirst sizes one other = one := by rw [placeFirst, vars]
            rw [same]
            simp only [List.length_nil, List.replicate_zero, List.nil_append, readVars, set]
            rw [← here, Function.update_eq_self]
          | cons v vs =>
            have placed : placeFirst sizes one other =
                { one with vars := place sizes v (firstAddr other) :: vs } := by
              rw [placeFirst, vars]
            rw [placed]
            exact readVars_eq sized here vars (typed one List.mem_cons_self v (by simp [vars]))
              (int other List.mem_cons_self)
        have size : (placeFirst sizes one other).size = one.size := by
          rw [placeFirst]
          split <;> rfl
        obtain ⟨mem', ran, held, frame⟩ := ih
          (holds.set_outside (placeFirst sizes one other) outside) (sized.set here size)
          counts typedRest intRest
        refine ⟨mem', ?_, Holds.cons_iff.mpr ⟨?_, outside, held⟩, ?_⟩
        · rw [List.flatMap_cons, readOnes, here]
          simp only [Option.bind_eq_bind, Option.bind_some, read]
          exact ran
        · rw [frame p outside, set_self]
        · intro q member
          obtain ⟨other, behind⟩ := not_or.mp (List.mem_cons.not.mp member)
          rw [frame q behind, set_other other]

end receive

/-- The types have as many fields, of the same types and lengths. -/
def SameFields (ones ones' : List StructOne) : Prop :=
  ones.map (fun one => one.vars.map fun v => (v.typeNum, v.len)) =
    ones'.map fun one => one.vars.map fun v => (v.typeNum, v.len)

/-- The numbers that go over the wire. -/
def Ints (ones : List StructOne) : Prop :=
  ∀ one ∈ ones, IsInt one.size ∧ ∀ v ∈ one.vars, IsInt v.addr

/-- The field `v` with the address of the field `w`, and the sizes from those of the types. -/
def receiveVar (sizes : List StructOne) (v w : Var) : Var :=
  { v with
    addr := w.addr
    arrayElemSize := sizeOf sizes v.typeNum
    size := v.len * sizeOf sizes v.typeNum }

def receiveOne (sizes : List StructOne) (one other : StructOne) : StructOne :=
  ⟨other.size, List.zipWith (receiveVar sizes) one.vars other.vars⟩

/-- The types of `ones` with the layout of `ones'`. -/
def receive (ones ones' : List StructOne) : List StructOne :=
  List.zipWith (receiveOne ones') ones ones'

/-- What the code makes of a type: only its first field is written, and read. -/
def readOne (sizes : List StructOne) (one other : StructOne) : StructOne :=
  placeFirst sizes (resize one other) other

/-- The first field is received where its size is an `int`; any other one stays as it is, so that
it has to have its new layout before. -/
def Received (sizes : List StructOne) (one other : StructOne) : Prop :=
  ∀ (j : Nat) v w, one.vars[j]? = some v → other.vars[j]? = some w →
    if j = 0 then IsInt (v.len * sizeOf sizes v.typeNum) else v = receiveVar sizes v w

theorem zipWith_eq_iff {α β γ : Type} {f g : α → β → γ} {as : List α} {bs : List β} :
    List.zipWith f as bs = List.zipWith g as bs ↔
      ∀ (i : Nat) a b, as[i]? = some a → bs[i]? = some b → f a b = g a b := by
  constructor
  · intro same i a b found found'
    have at' := congrArg (fun cs => cs[i]?) same
    simpa only [List.getElem?_zipWith, found, found', Option.some.injEq] using at'
  · intro same
    apply List.ext_getElem?
    intro i
    rw [List.getElem?_zipWith, List.getElem?_zipWith]
    cases found : as[i]? with
    | none => rfl
    | some a =>
      cases found' : bs[i]? with
      | none => rfl
      | some b => exact congrArg Option.some (same i a b found found')

theorem i32_eq_iff {x : Int} : i32 x = x ↔ IsInt x := by
  simp only [i32, IsInt]
  omega

theorem place_eq_iff {sizes : List StructOne} {v w : Var} :
    place sizes v w.addr = receiveVar sizes v w ↔ IsInt (v.len * sizeOf sizes v.typeNum) := by
  simp only [place, receiveVar, Var.mk.injEq, true_and, and_true]
  exact i32_eq_iff

theorem eq_zipWith_iff {α β : Type} {f : α → β → α} {as : List α} {bs : List β}
    (length : as.length = bs.length) :
    as = List.zipWith f as bs ↔ ∀ (i : Nat) a b, as[i]? = some a → bs[i]? = some b → a = f a b := by
  have left : List.zipWith (fun a _ => a) as bs = as :=
    List.map_uncurry_zip_eq_zipWith.symm.trans (List.map_fst_zip (Nat.le_of_eq length))
  rw [← zipWith_eq_iff, left]

theorem readOne_eq_iff {sizes : List StructOne} {one other : StructOne}
    (length : one.vars.length = other.vars.length) :
    readOne sizes one other = receiveOne sizes one other ↔ Received sizes one other := by
  obtain ⟨size, vars⟩ := one
  obtain ⟨size', vars'⟩ := other
  cases vars with
  | nil =>
    cases vars' with
    | nil => simp [readOne, placeFirst, resize, receiveOne, Received]
    | cons w ws => simp at length
  | cons v vs =>
    cases vars' with
    | nil => simp at length
    | cons w ws =>
      have rest : vs.length = ws.length := by simpa using length
      have split : Received sizes ⟨size, v :: vs⟩ ⟨size', w :: ws⟩ ↔
          IsInt (v.len * sizeOf sizes v.typeNum) ∧ ∀ (j : Nat) v w, vs[j]? = some v →
            ws[j]? = some w → v = receiveVar sizes v w := by
        constructor
        · intro received
          refine ⟨received 0 v w rfl rfl, ?_⟩
          intro j v' w' found found'
          exact received (j + 1) v' w' found found'
        · rintro ⟨first, others⟩ j v' w' found found'
          cases j with
          | zero =>
            cases found
            exact first
          | succ j => exact others j v' w' found found'
      rw [split, ← eq_zipWith_iff rest, ← place_eq_iff (w := w)]
      simp [readOne, placeFirst, resize, receiveOne, firstAddr]

theorem SameFields.count {ones ones' : List StructOne} (same : SameFields ones ones') :
    ones.map (·.vars.length) = ones'.map (·.vars.length) := by
  have lengths := congrArg (List.map List.length) same
  simpa only [List.map_map, Function.comp_def, List.length_map] using lengths

theorem tableWords_length {order order' : ByteOrder} {ones ones' : List StructOne}
    (count : ones.map (·.vars.length) = ones'.map (·.vars.length)) :
    (tableWords order ones).length = (tableWords order' ones').length := by
  have words : ∀ (order : ByteOrder) (ones : List StructOne), (tableWords order ones).length =
      (ones.map (·.vars.length)).length + (ones.map (·.vars.length)).sum := by
    intro order ones
    simp [tableWords, addrWords, List.length_flatMap]
  rw [words, words, count]

theorem sizeOf_eq {t : Nat} {one : StructOne} (found : ones[t]? = some one) :
    sizeOf ones t = one.size := by rw [sizeOf, found]; rfl

/-- After the sizes are read, the places have those of the other table. -/
theorem Holds.sized (holds : Holds mem ps (List.zipWith resize ones ones'))
    (length : ones.length = ones'.length) : Sized mem ps ones' := by
  intro t p found
  have less : t < ps.length := (List.getElem?_eq_some_iff.mp found).1
  have count := holds.length
  rw [List.length_zipWith, length, Nat.min_self] at count
  have here := congrArg (fun types => types[t]?) holds.types
  simp only [List.getElem?_map, found, List.getElem?_zipWith,
    List.getElem?_eq_getElem (show t < ones.length by omega),
    List.getElem?_eq_getElem (show t < ones'.length by omega), Option.map_some,
    Option.some.injEq] at here
  exact ⟨_, here, (sizeOf_eq (List.getElem?_eq_getElem (by omega))).symm⟩

section wire
variable {source dest : ByteOrder} {memA memB : Memory} {a b : StructAll}
variable {onesA onesB : List StructOne} {junk : Word} {base : Nat}

theorem Ints.firstAddr (ints : Ints onesB) {one : StructOne} (member : one ∈ onesB) :
    IsInt (firstAddr one) := by
  rw [StructTable.firstAddr]
  cases vars : one.vars with
  | nil => exact ⟨by decide, by decide⟩
  | cons v vs => exact (ints one member).2 v (by simp [vars])

/-- A table stays as it is when its block does. -/
theorem Table.frame (table : Table mem all ones)
    (same : ∀ p, all.base ≤ p → p < all.base + all.size → mem' p = mem p) :
    Table mem' all ones := by
  refine ⟨table.laid.congr ?_ rfl, table.closed⟩
  rw [← table.laid.holds.types]
  apply List.map_congr_left
  intro p member
  have inside := table.laid.bounds.2.2.1 p member
  exact same p (by omega) inside.2

theorem Table.unique (table : Table mem all ones) (table' : Table mem all ones') :
    ones = ones' := by
  have same := table.laid.holds.types.symm.trans table'.laid.holds.types
  exact List.map_injective_iff.mpr (Option.some_injective _) same

/-- A type keeps its fields, up to their layout. -/
theorem readOne_vars (sizes : List StructOne) (one other : StructOne) :
    (readOne sizes one other).vars.map (·.typeNum) = one.vars.map (·.typeNum) := by
  obtain ⟨size, vars⟩ := one
  cases vars with
  | nil => rfl
  | cons v vs => rfl

theorem readOne_places (length : onesA.length = onesB.length) (sizes : List StructOne) :
    (List.zipWith (readOne sizes) onesA onesB).map (fun one => one.vars.map (·.typeNum)) =
      onesA.map fun one => one.vars.map (·.typeNum) := by
  rw [List.map_zipWith]
  simp only [readOne_vars]
  rw [← List.map_uncurry_zip_eq_zipWith]
  have whole := List.map_fst_zip (Nat.le_of_eq length)
  conv_rhs => rw [← whole]
  rw [List.map_map]
  rfl

variable (source dest) in
/-- What convert_buf_to_struct_all makes of the words of convert_struct_all_to_buf. -/
theorem convertBufToStructAll_eq (tableA : Table memA a onesA) (same : SameFields onesA onesB)
    (ints : Ints onesB) (apart : Apart a.base a.size base a.size) (types : onesA ≠ []) :
    ∃ mem' dst, convertBufToStructAll dest memA a (tableWords source onesB) base =
        some (mem', dst) ∧ Table mem' dst (List.zipWith (readOne onesB) onesA onesB) ∧
      Table mem' a onesA := by
  obtain ⟨memD, dst, dumped, tableD, start, size, alone⟩ := dump_table tableA types apart
  have length : onesA.length = onesB.length := by simpa using congrArg List.length same
  have count := same.count
  have holdsD := tableD.laid.holds
  have places : dst.ones.length = onesA.length := holdsD.length
  obtain ⟨memS, readS, holdsS, frameS⟩ := readSizes_eq source dest
    (onesB.flatMap (addrWords source)) holdsD length fun one member => (ints one member).1
  have shape : List.zipWith (placeFirst onesB) (List.zipWith resize onesA onesB) onesB =
      List.zipWith (readOne onesB) onesA onesB := by
    apply List.ext_getElem?
    intro i
    simp only [List.getElem?_zipWith]
    cases onesA[i]? <;> cases onesB[i]? <;> rfl
  have sameS : (List.zipWith resize onesA onesB).map (·.vars.length) =
      onesB.map (·.vars.length) := by
    rw [← count, List.map_zipWith, ← List.map_uncurry_zip_eq_zipWith]
    conv_rhs => rw [← List.map_fst_zip (Nat.le_of_eq length), List.map_map]
    rfl
  have typedS : ∀ one ∈ List.zipWith resize onesA onesB, ∀ v ∈ one.vars,
      v.typeNum < dst.ones.length := by
    intro one member v field
    rw [← List.map_uncurry_zip_eq_zipWith] at member
    obtain ⟨⟨own, other⟩, paired, rfl⟩ := List.mem_map.mp member
    have := tableA.closed own (List.of_mem_zip paired).1 v field
    omega
  obtain ⟨memR, readR, holdsR, frameR⟩ := readOnes_eq source dest holdsS (holdsS.sized length)
    sameS typedS fun one member => ints.firstAddr member
  rw [shape] at holdsR
  refine ⟨memR, dst, ?_, ⟨tableD.laid.congr holdsR.types ?_, ?_⟩, ?_⟩
  · have enough : ¬ (tableWords source onesB).length < (tableWords source onesA).length :=
      Nat.not_lt.mpr (Nat.le_of_eq (tableWords_length count))
    rw [convertBufToStructAll, bufLen_eq source tableA.laid.holds.types]
    simp only [Option.bind_eq_bind, Option.bind_some, if_neg enough, dumped]
    rw [← tableWords] at readS
    simp only [readS, Option.bind_some, readR]
  · have counts := congrArg (List.map List.length) (readOne_places length onesB)
    simpa only [List.map_map, Function.comp_def, List.length_map] using counts
  · intro one member v field
    have placesOne : one.vars.map (·.typeNum) ∈ onesA.map fun one => one.vars.map (·.typeNum) := by
      rw [← readOne_places length onesB]
      exact List.mem_map_of_mem member
    obtain ⟨own, memberA, vars⟩ := List.mem_map.mp placesOne
    have fieldA : v.typeNum ∈ own.vars.map (·.typeNum) := by
      rw [vars]
      exact List.mem_map_of_mem field
    obtain ⟨own', fieldA, typeNum⟩ := List.mem_map.mp fieldA
    rw [List.length_zipWith, length, Nat.min_self, ← length, ← typeNum]
    exact tableA.closed own memberA own' fieldA
  · apply tableA.frame
    intro p low high
    have outside : p ∉ dst.ones := by
      intro member
      have inside := tableD.laid.bounds.2.2.1 p member
      rcases apart with before | behind
      · omega
      · omega
    rw [frameR p outside, frameS p outside, alone p low high]

/-- convert_buf_to_struct_all of what convert_struct_all_to_buf made of `b` is a table of the types
of `a` in the layout of `b`, and `a` is as it was. -/
def RoundTrip (source dest : ByteOrder) (memA memB : Memory) (a b : StructAll)
    (onesA onesB : List StructOne) (junk : Word) (base : Nat) : Prop :=
  ∃ buf mem' dst, convertStructAllToBuf source memB b junk = some buf ∧
    convertBufToStructAll dest memA a buf base = some (mem', dst) ∧
    Table mem' dst (receive onesA onesB) ∧ Table mem' a onesA

/-- The layout arrives when there is a type, and the fields behind the first one of each type have
it already. -/
theorem roundTrip_iff (tableA : Table memA a onesA) (tableB : Table memB b onesB)
    (same : SameFields onesA onesB) (ints : Ints onesB)
    (apart : Apart a.base a.size base a.size) :
    RoundTrip source dest memA memB a b onesA onesB junk base ↔
      onesA ≠ [] ∧ ∀ (i : Nat) one other, onesA[i]? = some one → onesB[i]? = some other →
        Received onesB one other := by
  have written := convertStructAllToBuf_eq source junk tableB.laid.holds.types
  have count := same.count
  have read : List.zipWith (readOne onesB) onesA onesB = receive onesA onesB ↔
      ∀ (i : Nat) one other, onesA[i]? = some one → onesB[i]? = some other →
        Received onesB one other := by
    rw [receive, zipWith_eq_iff]
    apply forall₅_congr
    intro i one other found found'
    have fields := congrArg (fun counts => counts[i]?) count
    simp only [List.getElem?_map, found, found', Option.map_some, Option.some.injEq] at fields
    exact readOne_eq_iff fields
  rw [← read]
  constructor
  · rintro ⟨buf, mem', dst, wrote, ran, table, alone⟩
    cases written.symm.trans wrote
    by_cases types : onesA = []
    · subst types
      have none : a.ones = [] := List.length_eq_zero_iff.mp tableA.laid.holds.length
      simp [convertBufToStructAll, dumpStructAll, none, getStructAllToBufLen] at ran
    · refine ⟨types, ?_⟩
      obtain ⟨mem'', dst', ran', table', _⟩ := convertBufToStructAll_eq source dest tableA same
        ints apart types
      cases ran.symm.trans ran'
      exact table'.unique table
  · rintro ⟨types, same'⟩
    obtain ⟨mem', dst, ran, table, alone⟩ := convertBufToStructAll_eq source dest tableA same ints
      apart types
    rw [same'] at table
    exact ⟨_, mem', dst, written, ran, table, alone⟩

end wire

section example_tables

/-- A word of `w` bytes, and a type of the given fields. -/
def exampleTypes (w size : Int) (vars : List Var) : List StructOne := [⟨w, []⟩, ⟨size, vars⟩]

def exampleTable (vars : List Var) : StructAll :=
  ⟨1000, 320 + structOneLen + vars.length * varLen, [1040, 1320]⟩

def exampleMemory (w size : Int) (vars : List Var) : Memory := fun p =>
  if p = 1040 then some ⟨w, []⟩ else if p = 1320 then some ⟨size, vars⟩ else none

theorem exampleTable_table (w size : Int) (vars : List Var) (words : ∀ v ∈ vars, v.typeNum = 0) :
    Table (exampleMemory w size vars) (exampleTable vars) (exampleTypes w size vars) := by
  refine ⟨⟨rfl, if_pos rfl, ?_, ?_, ?_⟩, ?_⟩
  · simp [exampleTable, structAllLen, pointerLen, structOneLen]
  · rw [exampleMemory, if_neg (by decide), if_pos rfl]
  · simp only [exampleTable, structAllLen, pointerLen, structOneLen, List.length_cons,
      List.length_nil]
    change _ = _
    omega
  · intro one member v field
    simp only [exampleTypes, List.mem_cons, List.not_mem_nil, or_false] at member
    rcases member with rfl | rfl
    · simp at field
    · rw [words v field]
      exact Nat.zero_lt_succ 1

def wordVar (w addr : Int) : Var := ⟨0, w, w, 1, addr, 0⟩

/-- A type with one field, from a big-endian host with words of 8 bytes to a little-endian one. -/
theorem roundTrip_holder : RoundTrip .big .little (exampleMemory 4 4 [wordVar 4 0])
    (exampleMemory 8 8 [wordVar 8 0]) (exampleTable [wordVar 4 0]) (exampleTable [wordVar 8 0])
    (exampleTypes 4 4 [wordVar 4 0]) (exampleTypes 8 8 [wordVar 8 0]) ⟨0, 0, 0, 0⟩ 5000 := by
  have apart : Apart (exampleTable [wordVar 4 0]).base (exampleTable [wordVar 4 0]).size 5000
      (exampleTable [wordVar 4 0]).size := .inl (by decide)
  apply (roundTrip_iff (exampleTable_table 4 4 [wordVar 4 0] (by simp [wordVar]))
    (exampleTable_table 8 8 [wordVar 8 0] (by simp [wordVar])) rfl ?_ apart).mpr
  · refine ⟨by simp [exampleTypes], ?_⟩
    intro i one other found found' j v w field field'
    have words : IsInt (v.len * sizeOf (exampleTypes 8 8 [wordVar 8 0]) v.typeNum) ∧ j = 0 := by
      match i, j with
      | 0, _ =>
        cases found
        simp at field
      | 1, 0 =>
        cases found
        cases field
        simp [IsInt, wordVar, exampleTypes, StructTable.sizeOf]
      | 1, j + 1 =>
        cases found
        simp at field
      | i + 2, _ => simp [exampleTypes] at found
    rw [if_pos words.2]
    exact words.1
  · simp [Ints, exampleTypes, wordVar, IsInt]

/-- The second field keeps its address. -/
theorem roundTrip_pair : (Table (exampleMemory 4 8 [wordVar 4 0, wordVar 4 4])
      (exampleTable [wordVar 4 0, wordVar 4 4]) (exampleTypes 4 8 [wordVar 4 0, wordVar 4 4]) ∧
    Table (exampleMemory 8 16 [wordVar 8 0, wordVar 8 8])
      (exampleTable [wordVar 8 0, wordVar 8 8]) (exampleTypes 8 16 [wordVar 8 0, wordVar 8 8]) ∧
    SameFields (exampleTypes 4 8 [wordVar 4 0, wordVar 4 4])
      (exampleTypes 8 16 [wordVar 8 0, wordVar 8 8])) ∧
    ¬ RoundTrip .little .little (exampleMemory 4 8 [wordVar 4 0, wordVar 4 4])
      (exampleMemory 8 16 [wordVar 8 0, wordVar 8 8]) (exampleTable [wordVar 4 0, wordVar 4 4])
      (exampleTable [wordVar 8 0, wordVar 8 8]) (exampleTypes 4 8 [wordVar 4 0, wordVar 4 4])
      (exampleTypes 8 16 [wordVar 8 0, wordVar 8 8]) ⟨0, 0, 0, 0⟩ 5000 := by
  have tableA := exampleTable_table 4 8 [wordVar 4 0, wordVar 4 4] (by simp [wordVar])
  have tableB := exampleTable_table 8 16 [wordVar 8 0, wordVar 8 8] (by simp [wordVar])
  have same : SameFields (exampleTypes 4 8 [wordVar 4 0, wordVar 4 4])
      (exampleTypes 8 16 [wordVar 8 0, wordVar 8 8]) := rfl
  have ints : Ints (exampleTypes 8 16 [wordVar 8 0, wordVar 8 8]) := by
    simp [Ints, exampleTypes, wordVar, IsInt]
  refine ⟨⟨tableA, tableB, same⟩, ?_⟩
  rintro ⟨buf, mem', dst, wrote, ran, table, _⟩
  rw [convertStructAllToBuf_eq _ _ tableB.laid.holds.types] at wrote
  cases wrote
  obtain ⟨mem'', dst', ran', table', _⟩ := convertBufToStructAll_eq .little .little tableA same ints
    (.inl (by decide) : Apart 1000 _ 5000 _) (by simp [exampleTypes])
  cases ran.symm.trans ran'
  exact absurd (table'.unique table) (by decide +kernel)

end example_tables
end MoonInWater.Sync.StructTable
