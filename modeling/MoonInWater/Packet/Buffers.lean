import MoonInWater.Packet.Model
import MoonInWater.Lib.Follows
import Mathlib.Algebra.Order.BigOperators.Group.List
import Mathlib.Algebra.Order.Ring.Int

/-! Descriptors put in front of a packet and behind it, and travels over them, compared with lists
of descriptors. -/
namespace MoonInWater.Packet
open CInt Block Machine
variable {V : Type} [DecidableEq V] {head tail : BufHead} {ds es news : List BufDesc}

def lens (ds : List BufDesc) : Int := (ds.map (·.len)).sum

@[simp] theorem lens_nil : lens [] = 0 := rfl

@[simp] theorem lens_cons (d : BufDesc) (ds : List BufDesc) : lens (d :: ds) = d.len + lens ds := by
  simp [lens]

@[simp] theorem lens_append (ds es : List BufDesc) : lens (ds ++ es) = lens ds + lens es := by
  simp [lens]

/-- The descriptors from `cur_index` to `last_index`. -/
def descSeq (head : BufHead) : List (Option BufDesc) :=
  (head.descs.drop head.curIndex).take (head.lastIndex + 1 - head.curIndex)

/-- The packet has these descriptors, with any room on both sides. -/
structure Holds (head : BufHead) (ds : List BufDesc) : Prop where
  cells : ∃ front rear, head.descs = front ++ ds.map some ++ rear ∧ front.length = head.curIndex
  last : head.lastIndex + 1 = head.curIndex + ds.length
  num : head.bufNum = head.descs.length
  len : head.bufLen = lens ds
  positive : ∀ d ∈ ds, 0 < d.len
  filled : ds ≠ []
  small : lens ds < 2 ^ 31

theorem Holds.descSeq (holds : Holds head ds) : descSeq head = ds.map some := by
  obtain ⟨front, rear, cells, start⟩ := holds.cells
  have last := holds.last
  rw [Packet.descSeq, cells, ← start, List.append_assoc, List.drop_left]
  have count : head.lastIndex + 1 - front.length = (ds.map some).length := by
    rw [List.length_map]
    omega
  rw [count, List.take_left]

theorem Holds.length_pos (holds : Holds head ds) : 0 < ds.length :=
  List.length_pos_iff.mpr holds.filled

theorem lens_nonneg (positive : ∀ d ∈ ds, 0 < d.len) : 0 ≤ lens ds := by
  apply List.sum_nonneg
  intro x member
  obtain ⟨d, found, rfl⟩ := List.mem_map.mp member
  exact (positive d found).le

/-- A block as it is allocated for some descriptors. -/
def packed (bufLen : Int) (ds : List BufDesc) : BufHead :=
  { mallocHead bufLen (freeDescNum + ds.length - 1) (totalFreeDescNum + ds.length) with
    descs := List.replicate freeDescNum none ++ ds.map some ++ List.replicate freeDescNum none }

theorem packed_holds (filled : ds ≠ []) (positive : ∀ d ∈ ds, 0 < d.len)
    (small : lens ds < 2 ^ 31) : Holds (packed (lens ds) ds) ds := by
  have length := List.length_pos_iff.mpr filled
  refine ⟨⟨_, _, rfl, List.length_replicate⟩, ?_, ?_, rfl, positive, filled, small⟩
  · simp only [packed, mallocHead]
    omega
  · simp only [packed, mallocHead, totalFreeDescNum, List.length_append, List.length_replicate,
      List.length_map]
    omega

/-- _add_buf_to_packet puts the descriptors in front of those of a packet that it enlarges. -/
theorem addDescs_eq (holds : Holds head ds) (news : List BufDesc) (len : Int) :
    addDescs (some head) (news.map some) len =
      if head.curIndex < news.length then some (packed (i32 (head.bufLen + len)) (news ++ ds))
      else none := by
  obtain ⟨front, rear, cells, start⟩ := holds.cells
  have last := holds.last
  have count : head.lastIndex + 1 - head.curIndex = ds.length := by omega
  have fetched : fetch head.descs head.curIndex ds.length = some (ds.map some) := by
    rw [cells]
    exact fetch_mid start.symm (by simp)
  rw [addDescs]
  simp only [Option.bind_eq_bind, Option.bind_some, List.length_map, count, fetched]
  by_cases grows : head.curIndex < news.length
  · rw [if_pos grows, if_pos grows]
    have room : List.replicate (totalFreeDescNum + news.length + ds.length) (none : Option BufDesc) =
        List.replicate (freeDescNum + news.length) none ++ List.replicate ds.length none ++
          List.replicate freeDescNum none := by
      simp only [List.replicate_append_replicate]
      congr 1
      simp only [totalFreeDescNum]
      omega
    have first : store (mallocHead (i32 (head.bufLen + len))
        (freeDescNum + news.length + ds.length - 1)
        (totalFreeDescNum + news.length + ds.length)).descs (freeDescNum + news.length)
        (ds.map some) = some (List.replicate freeDescNum none ++ List.replicate news.length none ++
          (ds.map some ++ List.replicate freeDescNum none)) := by
      simp only [mallocHead]
      rw [room, store_mid (by simp) (by simp), ← List.replicate_append_replicate]
      simp
    have second : store (List.replicate freeDescNum none ++ List.replicate news.length none ++
        (ds.map some ++ List.replicate freeDescNum none)) freeDescNum (news.map some) =
          some (List.replicate freeDescNum none ++ news.map some ++
            (ds.map some ++ List.replicate freeDescNum none)) :=
      store_mid (by simp) (by simp)
    simp only [mallocHead] at first
    simp only [mallocHead, first, Option.bind_some, second]
    simp only [packed, mallocHead, List.length_append, List.map_append, List.append_assoc,
      Nat.add_assoc]
  · rw [if_neg grows, if_neg grows]

/-- _append_buf_to_packet puts them behind. -/
theorem appendDescs_eq (holds : Holds head ds) (news : List BufDesc) (len : Int) :
    appendDescs (some head) (news.map some) len =
      if head.bufNum < head.lastIndex + 1 + news.length then
        some (packed (i32 (head.bufLen + len)) (ds ++ news))
      else none := by
  obtain ⟨front, rear, cells, start⟩ := holds.cells
  have last := holds.last
  have length := holds.length_pos
  have count : head.lastIndex + 1 - head.curIndex = ds.length := by omega
  have fetched : fetch head.descs head.curIndex ds.length = some (ds.map some) := by
    rw [cells]
    exact fetch_mid start.symm (by simp)
  rw [appendDescs]
  simp only [Option.bind_eq_bind, Option.bind_some, List.length_map, count, fetched]
  by_cases grows : head.bufNum < head.lastIndex + 1 + news.length
  · rw [if_pos grows, if_pos grows]
    have room : List.replicate (totalFreeDescNum + news.length + ds.length) (none : Option BufDesc) =
        List.replicate freeDescNum none ++ List.replicate ds.length none ++
          (List.replicate news.length none ++ List.replicate freeDescNum none) := by
      simp only [List.replicate_append_replicate]
      congr 1
      simp only [totalFreeDescNum]
      omega
    have first : store (mallocHead (i32 (head.bufLen + len))
        (freeDescNum + news.length + ds.length - 1)
        (totalFreeDescNum + news.length + ds.length)).descs freeDescNum
        (ds.map some) = some (List.replicate freeDescNum none ++ ds.map some ++
          List.replicate news.length none ++ List.replicate freeDescNum none) := by
      simp only [mallocHead]
      rw [room, store_mid (by simp) (by simp)]
      simp
    have second : store (List.replicate freeDescNum none ++ ds.map some ++
        List.replicate news.length none ++ List.replicate freeDescNum none)
        (freeDescNum + news.length + ds.length - 1 + 1 - news.length) (news.map some) =
          some (List.replicate freeDescNum none ++ ds.map some ++ news.map some ++
            List.replicate freeDescNum none) := by
      apply store_mid
      · simp
        omega
      · simp
    simp only [mallocHead] at first
    have order : totalFreeDescNum + news.length + ds.length =
        totalFreeDescNum + (ds.length + news.length) := by omega
    have order' : freeDescNum + news.length + ds.length =
        freeDescNum + (ds.length + news.length) := by omega
    simp only [mallocHead, first, Option.bind_some, second]
    simp only [packed, mallocHead, List.length_append, List.map_append, List.append_assoc, order,
      order']
  · rw [if_neg grows, if_neg grows]

/-- The operations on the packets of a program; a travel begins and calls get_next_buf some times. -/
inductive Op (V : Type) where
  | add (v : V) (pDesc : BufDesc)
  | merge (v w : V) (isCopy : Bool)
  | travel (v : V) (calls : Nat)
deriving DecidableEq

def getNextBufs : Nat → Option BufHead → Option (Option BufHead × List Got)
  | 0, pHead => some (pHead, [])
  | k + 1, pHead => do
    let (pHead, got) ← getNextBuf pHead
    let (pHead, gots) ← getNextBufs k pHead
    some (pHead, got :: gots)

def step : Op V → Store V → Option (Store V × List Got)
  | .add v pDesc, s => (addBufToPacket s v pDesc).map fun r => (r.1, [⟨r.2, none⟩])
  | .merge v w isCopy, s => (mergerPacket s v w isCopy).map fun r => (r.1, [⟨r.2, none⟩])
  | .travel v calls, s => (getNextBufs calls (beginTravelPacket (s.packets v))).map fun r =>
    ({ s with packets := Function.update s.packets v r.1 }, r.2)

/-- The packets as lists of descriptors. -/
structure Lists (V : Type) where
  packets : V → Option (List BufDesc)
  refs : Nat → Nat

/-- A descriptor that add_buf_to_packet takes. -/
def Takes (pDesc : BufDesc) : Prop := pDesc.buf ≠ 0 ∧ 0 ≤ pDesc.offset ∧ 0 < pDesc.len

instance (pDesc : BufDesc) : Decidable (Takes pDesc) := inferInstanceAs (Decidable (_ ∧ _))

/-- The number of descriptors that refer to a buffer. -/
def refCount (ds : List BufDesc) (b : Nat) : Nat := (ds.map (·.buf)).count b

def mergeLists (a : Lists V) (v w : V) (isCopy : Bool) (ds es : List BufDesc) : Lists V :=
  let packets := Function.update a.packets v (some (ds ++ es))
  if isCopy then ⟨packets, fun b => a.refs b + refCount es b⟩
  else ⟨Function.update packets w none, a.refs⟩

/-- What an operation does to the lists. -/
def spec : Op V → Lists V → Lists V
  | .add v pDesc, a =>
    if Takes pDesc then
      { a with packets := Function.update a.packets v (some (pDesc :: (a.packets v).getD [])) }
    else a
  | .merge v w isCopy, a =>
    match a.packets v, a.packets w with
    | some ds, some es => mergeLists a v w isCopy ds es
    | _, _ => a
  | .travel _ _, a => a

def gotOf (d : BufDesc) : Got := ⟨d.len, some (d.buf + d.offset, d.len)⟩

/-- What the calls of an operation return: the travel gives each descriptor, and then 0. -/
def specOut : Op V → Lists V → List Got
  | .add _ pDesc, _ => [⟨if Takes pDesc then 0 else -1, none⟩]
  | .merge v w _, a => [⟨if (a.packets v).isSome ∧ (a.packets w).isSome then 0 else -1, none⟩]
  | .travel v calls, a =>
    let ds := (a.packets v).getD []
    (ds.map gotOf).take calls ++ List.replicate (calls - ds.length) ⟨0, none⟩

/-- The packets have the descriptors of the lists, with their lengths, and the buffers as many
references. -/
structure Matches (s : Store V) (a : Lists V) : Prop where
  packets : ∀ v, (s.packets v).map descSeq = (a.packets v).map (List.map some)
  lens : ∀ v, getPacketLen (s.packets v) = lens ((a.packets v).getD [])
  refs : s.refs = a.refs

/-- The packet is NULL, or has the descriptors. -/
inductive HoldsOpt : Option BufHead → Option (List BufDesc) → Prop where
  | null : HoldsOpt none none
  | packet {head : BufHead} {ds : List BufDesc} (holds : Holds head ds) : HoldsOpt (some head) (some ds)

structure Inv (s : Store V) (a : Lists V) : Prop where
  packets : ∀ v, HoldsOpt (s.packets v) (a.packets v)
  refs : s.refs = a.refs

/-- The operations that are done on the lists as well: they are refused, or they get a new block
for the packet, and its length is an `int`. -/
def Clean : Op V → Store V → Prop
  | .add v pDesc, s => Takes pDesc → ∃ head, s.packets v = some head ∧ head.curIndex = 0 ∧
      head.bufLen + pDesc.len < 2 ^ 31
  | .merge v w isCopy, s => ∀ head tail, s.packets v = some head → s.packets w = some tail →
      v ≠ w ∧ isCopy = false ∧
        head.bufNum < head.lastIndex + 1 + (tail.lastIndex + 1 - tail.curIndex) ∧
        head.bufLen + tail.bufLen < 2 ^ 31
  | .travel v calls, s => calls ≤ ((s.packets v).map fun head =>
      head.lastIndex + 1 - head.curIndex).getD 0

theorem HoldsOpt.of_some {l : Option (List BufDesc)} (holds : HoldsOpt (some head) l) :
    ∃ ds, l = some ds ∧ Holds head ds := by
  cases holds with
  | packet holds => exact ⟨_, rfl, holds⟩

theorem HoldsOpt.of_none {l : Option (List BufDesc)} (holds : HoldsOpt none l) : l = none := by
  cases holds with
  | null => rfl

theorem HoldsOpt.matches {p : Option BufHead} {l : Option (List BufDesc)} (holds : HoldsOpt p l) :
    p.map Packet.descSeq = l.map (List.map some) ∧ getPacketLen p = Packet.lens (l.getD []) := by
  cases holds with
  | null => exact ⟨rfl, rfl⟩
  | packet holds => exact ⟨congrArg some holds.descSeq, holds.len⟩

omit [DecidableEq V] in
theorem Inv.matches {s : Store V} {a : Lists V} (inv : Inv s a) : Matches s a :=
  ⟨fun v => (inv.packets v).matches.1, fun v => (inv.packets v).matches.2, inv.refs⟩

theorem HoldsOpt.update {packets : V → Option BufHead} {lists : V → Option (List BufDesc)}
    (all : ∀ v, HoldsOpt (packets v) (lists v)) {p : Option BufHead} {l : Option (List BufDesc)}
    (new : HoldsOpt p l) (v w : V) :
    HoldsOpt (Function.update packets v p w) (Function.update lists v l w) := by
  by_cases same : w = v
  · subst same
    rw [Function.update_self, Function.update_self]
    exact new
  · rw [Function.update_of_ne same, Function.update_of_ne same]
    exact all w

theorem addBufToPacket_eq (s : Store V) (v : V) (pDesc : BufDesc) :
    addBufToPacket s v pDesc = if Takes pDesc then
      (addDescs (s.packets v) [some pDesc] pDesc.len).map fun head =>
        ({ s with packets := Function.update s.packets v (some head) }, 0)
    else some (s, -1) := by
  rw [addBufToPacket]
  by_cases takes : Takes pDesc
  · have ok : ¬ (pDesc.buf = 0 ∨ pDesc.offset < 0 ∨ pDesc.len ≤ 0) := by
      obtain ⟨buf, offset, len⟩ := takes
      omega
    rw [if_neg ok, if_pos takes]
    cases addDescs (s.packets v) [some pDesc] pDesc.len with
    | none => rfl
    | some head => rfl
  · have refused : pDesc.buf = 0 ∨ pDesc.offset < 0 ∨ pDesc.len ≤ 0 := by
      rw [Takes] at takes
      omega
    rw [if_pos refused, if_neg takes]

section steps
variable {s s' : Store V} {a : Lists V} {out : List Got}

theorem step_add (v : V) (pDesc : BufDesc) : step (.add v pDesc) s =
    (addBufToPacket s v pDesc).map fun r => (r.1, [⟨r.2, none⟩]) := rfl

theorem step_merge (v w : V) (isCopy : Bool) : step (.merge v w isCopy) s =
    (mergerPacket s v w isCopy).map fun r => (r.1, [⟨r.2, none⟩]) := rfl

theorem step_travel (v : V) (calls : Nat) : step (.travel v calls) s =
    (getNextBufs calls (beginTravelPacket (s.packets v))).map fun r =>
      ({ s with packets := Function.update s.packets v r.1 }, r.2) := rfl

omit [DecidableEq V] in
theorem specOut_add (v : V) (pDesc : BufDesc) :
    specOut (.add v pDesc) a = [⟨if Takes pDesc then 0 else -1, none⟩] := rfl

omit [DecidableEq V] in
theorem specOut_merge (v w : V) (isCopy : Bool) : specOut (.merge v w isCopy) a =
    [⟨if (a.packets v).isSome ∧ (a.packets w).isSome then 0 else -1, none⟩] := rfl

omit [DecidableEq V] in
theorem specOut_travel (v : V) (calls : Nat) : specOut (.travel v calls) a =
    (((a.packets v).getD []).map gotOf).take calls ++
      List.replicate (calls - ((a.packets v).getD []).length) ⟨0, none⟩ := rfl

theorem add_keeps (inv : Inv s a) {v : V} {pDesc : BufDesc} (clean : Clean (.add v pDesc) s) :
    ∃ s' out, step (.add v pDesc) s = some (s', out) ∧ out = specOut (.add v pDesc) a ∧
      Inv s' (spec (.add v pDesc) a) := by
  rw [step_add, addBufToPacket_eq, specOut_add, spec]
  by_cases takes : Takes pDesc
  · obtain ⟨head, found, room, small⟩ := clean takes
    have packets := inv.packets v
    rw [found] at packets
    obtain ⟨ds, list, holds⟩ := packets.of_some
    have added : addDescs (some head) [some pDesc] pDesc.len = _ :=
      addDescs_eq holds [pDesc] pDesc.len
    have positive : ∀ d ∈ pDesc :: ds, 0 < d.len :=
      List.forall_mem_cons.mpr ⟨takes.2.2, holds.positive⟩
    have total : head.bufLen + pDesc.len = lens (pDesc :: ds) := by
      rw [lens_cons, holds.len, Int.add_comm]
    have low := lens_nonneg positive
    rw [if_pos (by simp [room])] at added
    have sum : i32 (head.bufLen + pDesc.len) = lens (pDesc :: ds) := by
      rw [i32_eq (by omega) small, total]
    rw [sum] at added
    rw [if_pos takes, if_pos takes, if_pos takes, found, added]
    refine ⟨_, _, rfl, rfl, ?_, inv.refs⟩
    intro w
    rw [list]
    apply HoldsOpt.update inv.packets
    exact .packet (packed_holds (by simp) positive (total ▸ small))
  · rw [if_neg takes, if_neg takes, if_neg takes]
    exact ⟨s, _, rfl, rfl, inv⟩

theorem add_forced (inv : Inv s a) {v : V} {pDesc : BufDesc}
    (ran : step (.add v pDesc) s = some (s', out)) (matching : Matches s' (spec (.add v pDesc) a)) :
    Clean (.add v pDesc) s := by
  intro takes
  rw [step_add, addBufToPacket_eq, if_pos takes] at ran
  rw [spec, if_pos takes] at matching
  have packets := inv.packets v
  cases found : s.packets v with
  | none =>
    rw [found] at ran
    cases ran
  | some head =>
    rw [found] at ran packets
    obtain ⟨ds, list, holds⟩ := packets.of_some
    have added : addDescs (some head) [some pDesc] pDesc.len = _ :=
      addDescs_eq holds [pDesc] pDesc.len
    rw [added] at ran
    by_cases room : head.curIndex < [pDesc].length
    · rw [if_pos room] at ran
      cases ran
      have total := matching.lens v
      simp only [Function.update_self, list, getPacketLen] at total
      have bound : i32 (head.bufLen + pDesc.len) < 2 ^ 31 := by
        simp only [i32]
        omega
      have sum : i32 (head.bufLen + pDesc.len) = lens (pDesc :: ds) := total
      rw [sum, lens_cons, ← holds.len] at bound
      refine ⟨head, rfl, ?_, by omega⟩
      simp only [List.length_cons, List.length_nil] at room
      omega
    · rw [if_neg room] at ran
      cases ran

/-- merger_packet of two packets that are not the same one. -/
theorem mergerPacket_eq {v w : V} {isCopy : Bool} (other : v ≠ w) (found : s.packets v = some head)
    (found' : s.packets w = some tail) (holds : Holds head ds) (holds' : Holds tail es) :
    mergerPacket s v w isCopy =
      if head.bufNum < head.lastIndex + 1 + es.length then
        let packets := Function.update s.packets v
          (some (packed (i32 (head.bufLen + tail.bufLen)) (ds ++ es)))
        if isCopy then some (⟨Function.update packets w (some ((List.range' tail.curIndex
          es.length).foldl countBefore tail)), s.refs⟩, 0)
        else some (⟨Function.update packets w none, s.refs⟩, 0)
      else none := by
  obtain ⟨front, rear, cells, start⟩ := holds'.cells
  have last := holds'.last
  have count : tail.lastIndex + 1 - tail.curIndex = es.length := by omega
  have fetched : fetch tail.descs tail.curIndex es.length = some (es.map some) := by
    rw [cells]
    exact fetch_mid start.symm (by simp)
  have appended := appendDescs_eq holds es tail.bufLen
  rw [mergerPacket]
  simp only [found, found', if_neg other, count, fetched, Option.bind_eq_bind, Option.bind_some,
    appended]
  by_cases grows : head.bufNum < head.lastIndex + 1 + es.length
  · simp only [if_pos grows, Option.bind_some]
  · simp only [if_neg grows, Option.bind_none]

theorem mergerPacket_null {v w : V} {isCopy : Bool}
    (null : s.packets v = none ∨ s.packets w = none) :
    mergerPacket s v w isCopy = some (s, -1) := by
  rw [mergerPacket]
  rcases null with null | null
  · rw [null]
  · rw [null]
    cases s.packets v with
    | none => rfl
    | some head => rfl

theorem mergerPacket_self {v : V} {isCopy : Bool} (found : s.packets v = some head) :
    mergerPacket s v v isCopy = none := by
  rw [mergerPacket]
  simp only [found, if_true]

theorem merge_null_keeps (inv : Inv s a) {v w : V} {isCopy : Bool}
    (null : s.packets v = none ∨ s.packets w = none) :
    step (.merge v w isCopy) s = some (s, specOut (.merge v w isCopy) a) ∧
      spec (.merge v w isCopy) a = a := by
  have lists : a.packets v = none ∨ a.packets w = none := by
    rcases null with null | null
    · exact .inl (null ▸ inv.packets v).of_none
    · exact .inr (null ▸ inv.packets w).of_none
  rw [step_merge, mergerPacket_null null, spec, specOut_merge]
  rcases lists with none' | none'
  · simp [none']
  · rw [none']
    cases a.packets v with
    | none => simp
    | some ds => simp

theorem merge_keeps (inv : Inv s a) {v w : V} {isCopy : Bool}
    (clean : Clean (.merge v w isCopy) s) :
    ∃ s' out, step (.merge v w isCopy) s = some (s', out) ∧ out = specOut (.merge v w isCopy) a ∧
      Inv s' (spec (.merge v w isCopy) a) := by
  by_cases null : s.packets v = none ∨ s.packets w = none
  · obtain ⟨ran, same⟩ := merge_null_keeps inv null
    exact ⟨_, _, ran, rfl, same.symm ▸ inv⟩
  · obtain ⟨some', some''⟩ := not_or.mp null
    obtain ⟨head, found⟩ := Option.ne_none_iff_exists'.mp some'
    obtain ⟨tail, found'⟩ := Option.ne_none_iff_exists'.mp some''
    obtain ⟨other, rfl, grows, small⟩ := clean head tail found found'
    obtain ⟨ds, list, holds⟩ := (found ▸ inv.packets v).of_some
    obtain ⟨es, list', holds'⟩ := (found' ▸ inv.packets w).of_some
    have count : tail.lastIndex + 1 - tail.curIndex = es.length := by
      have := holds'.last
      omega
    have positive : ∀ d ∈ ds ++ es, 0 < d.len := by
      intro d member
      rcases List.mem_append.mp member with front | rear
      · exact holds.positive d front
      · exact holds'.positive d rear
    have low := lens_nonneg positive
    have total : head.bufLen + tail.bufLen = lens (ds ++ es) := by
      rw [lens_append, holds.len, holds'.len]
    have sum : i32 (head.bufLen + tail.bufLen) = lens (ds ++ es) := by
      rw [i32_eq (by omega) small, total]
    rw [count] at grows
    rw [step_merge, mergerPacket_eq other found found' holds holds', if_pos grows, sum,
      specOut_merge, spec, list, list']
    refine ⟨_, _, rfl, rfl, ?_, inv.refs⟩
    intro x
    apply HoldsOpt.update
    · apply HoldsOpt.update inv.packets
      apply HoldsOpt.packet (packed_holds ?_ positive (total ▸ small))
      simp [holds.filled]
    · exact .null

theorem merge_forced (inv : Inv s a) {v w : V} {isCopy : Bool}
    (ran : step (.merge v w isCopy) s = some (s', out))
    (matching : Matches s' (spec (.merge v w isCopy) a)) : Clean (.merge v w isCopy) s := by
  intro head tail found found'
  obtain ⟨ds, list, holds⟩ := (found ▸ inv.packets v).of_some
  obtain ⟨es, list', holds'⟩ := (found' ▸ inv.packets w).of_some
  have count : tail.lastIndex + 1 - tail.curIndex = es.length := by
    have := holds'.last
    omega
  by_cases other : v = w
  · subst other
    rw [step_merge, mergerPacket_self found] at ran
    cases ran
  · rw [step_merge, mergerPacket_eq other found found' holds holds'] at ran
    by_cases grows : head.bufNum < head.lastIndex + 1 + es.length
    · rw [if_pos grows] at ran
      have lists : spec (.merge v w isCopy) a = mergeLists a v w isCopy ds es := by
        rw [spec, list, list']
      rw [lists] at matching
      cases isCopy with
      | true =>
        -- the code takes no reference for the first descriptor of the tail
        cases ran
        cases es with
        | nil => exact absurd rfl holds'.filled
        | cons e es =>
          have refs := congrFun matching.refs e.buf
          simp [mergeLists, refCount, inv.refs] at refs
      | false =>
        cases ran
        have total := matching.lens v
        simp only [mergeLists, Bool.false_eq_true, if_false, Function.update_of_ne other,
          Function.update_self, Option.getD_some] at total
        have bound : i32 (head.bufLen + tail.bufLen) < 2 ^ 31 := by
          simp only [i32]
          omega
        have sum : i32 (head.bufLen + tail.bufLen) = lens (ds ++ es) := total
        rw [sum, lens_append, ← holds.len, ← holds'.len] at bound
        exact ⟨other, rfl, count ▸ grows, bound⟩
    · rw [if_neg grows] at ran
      cases ran

theorem getNextBufs_null (k : Nat) :
    getNextBufs k none = some (none, List.replicate k ⟨-1, none⟩) := by
  induction k with
  | zero => rfl
  | succ k ih =>
    rw [getNextBufs, getNextBuf, List.replicate_succ]
    simp only [Option.bind_eq_bind, Option.bind_some, ih]

/-- A packet that has a descriptor answers each call with a descriptor, also behind the last. -/
theorem getNextBufs_data {k : Nat} {pHead' : Option BufHead} {gots : List Got}
    (order : head.curIndex ≤ head.lastIndex)
    (ran : getNextBufs k (some head) = some (pHead', gots)) :
    ∀ got ∈ gots, got.data ≠ none := by
  induction k generalizing head gots with
  | zero =>
    cases ran
    simp
  | succ k ih =>
    rw [getNextBufs, getNextBuf, if_neg (by omega)] at ran
    simp only [Option.bind_eq_bind, Option.bind_eq_some_iff, Option.some.injEq] at ran
    obtain ⟨⟨p, got⟩, ⟨next, _, pDesc, _, first⟩, ⟨p', rest⟩, later, same⟩ := ran
    cases first
    cases same
    intro got member
    rcases List.mem_cons.mp member with rfl | behind
    · simp
    · refine ih ?_ later got behind
      exact order

theorem getNextBufs_eq (holds : Holds head ds) {k j : Nat} (inside : j + k ≤ ds.length) :
    getNextBufs k (some { head with traverNextIndex := some (head.curIndex + j) }) =
      some (some { head with traverNextIndex := some (head.curIndex + j + k) },
        ((ds.drop j).take k).map gotOf) := by
  obtain ⟨front, rear, cells, start⟩ := holds.cells
  have last := holds.last
  have length := holds.length_pos
  induction k generalizing j with
  | zero => rfl
  | succ k ih =>
    have less : j < ds.length := by omega
    have loaded : load head.descs (head.curIndex + j) = some ds[j] := by
      rw [cells, ← start]
      apply load_mid (Nat.le_add_right ..)
      rw [Nat.add_sub_cancel_left]
      exact List.getElem?_eq_getElem less
    have next := @ih (j + 1) (by omega)
    rw [getNextBufs, getNextBuf, if_neg (by dsimp only; omega)]
    simp only [Option.bind_eq_bind, Option.bind_some, loaded]
    rw [List.drop_eq_getElem_cons less, List.take_succ_cons, List.map_cons]
    have sum : head.curIndex + j + (k + 1) = head.curIndex + (j + 1) + k := by omega
    rw [Nat.add_assoc head.curIndex j 1, next, sum]
    rfl

theorem travel_keeps (inv : Inv s a) {v : V} {calls : Nat} (clean : Clean (.travel v calls) s) :
    ∃ s' out, step (.travel v calls) s = some (s', out) ∧ out = specOut (.travel v calls) a ∧
      Inv s' (spec (.travel v calls) a) := by
  cases found : s.packets v with
  | none =>
    have none' := (found ▸ inv.packets v).of_none
    have zero : calls = 0 := by
      rw [Clean, found] at clean
      exact Nat.le_zero.mp clean
    subst zero
    rw [step_travel, found, specOut_travel, none']
    refine ⟨_, _, rfl, rfl, ?_, inv.refs⟩
    intro w
    have same := HoldsOpt.update inv.packets .null v w
    rw [← none', Function.update_eq_self] at same
    exact same
  | some head =>
    obtain ⟨ds, list, holds⟩ := (found ▸ inv.packets v).of_some
    have count : calls ≤ ds.length := by
      rw [Clean, found] at clean
      have last := holds.last
      simp only [Option.map_some, Option.getD_some] at clean
      omega
    have gots := getNextBufs_eq holds (k := calls) (j := 0) (by omega)
    rw [Nat.add_zero] at gots
    rw [step_travel, found, beginTravelPacket, Option.map_some, gots, specOut_travel, list]
    refine ⟨_, _, rfl, ?_, ?_, inv.refs⟩
    · simp [Nat.sub_eq_zero_of_le count, List.map_take]
    · intro w
      have same := HoldsOpt.update inv.packets (.packet (⟨holds.cells, holds.last, holds.num,
        holds.len, holds.positive, holds.filled, holds.small⟩ : Holds { head with
          traverNextIndex := some (head.curIndex + calls) } ds)) v w
      rw [← list, Function.update_eq_self] at same
      exact same

theorem travel_forced (inv : Inv s a) {v : V} {calls : Nat}
    (ran : step (.travel v calls) s = some (s', out)) (gave : out = specOut (.travel v calls) a) :
    Clean (.travel v calls) s := by
  rw [Clean]
  by_contra long
  cases found : s.packets v with
  | none =>
    have none' := (found ▸ inv.packets v).of_none
    rw [step_travel, found, beginTravelPacket, Option.map_none, getNextBufs_null] at ran
    cases ran
    rw [specOut_travel, none', found] at *
    have some' : calls ≠ 0 := by
      rintro rfl
      exact long (Nat.zero_le _)
    obtain ⟨k, rfl⟩ := Nat.exists_eq_succ_of_ne_zero some'
    simp [List.replicate_succ] at gave
  | some head =>
    obtain ⟨ds, list, holds⟩ := (found ▸ inv.packets v).of_some
    have last := holds.last
    have length := holds.length_pos
    rw [found] at long
    simp only [Option.map_some, Option.getD_some] at long
    rw [step_travel, found, beginTravelPacket, Option.map_some] at ran
    obtain ⟨⟨p, gots⟩, walked, same⟩ := Option.map_eq_some_iff.mp ran
    cases same
    have zero : (⟨0, none⟩ : Got) ∈ specOut (.travel v calls) a := by
      simp only [specOut_travel, list, Option.getD_some]
      apply List.mem_append_right
      apply List.mem_replicate.mpr
      exact ⟨by omega, rfl⟩
    rw [← gave] at zero
    exact getNextBufs_data (by dsimp only; omega) walked _ zero rfl

end steps

/-- The packets behave as lists of descriptors along a run as long as each of its operations is
refused, gets a new block for the packet that it extends, or travels over no more than the
descriptors. -/
theorem buffers_iff {s : Store V} {a : Lists V} (inv : Inv s a) (ops : List (Op V)) :
    Follows step spec (fun op a _ _ out => out = specOut op a) Matches ops s a ↔
      Meets step Clean ops s := by
  apply follows_iff_meets (fun s a inv => inv.matches) ?_ ?_ inv
  · intro op s a inv clean
    cases op with
    | add v pDesc => exact add_keeps inv clean
    | merge v w isCopy => exact merge_keeps inv clean
    | travel v calls => exact travel_keeps inv clean
  · intro op s a s' out inv ran gave matching
    cases op with
    | add v pDesc => exact add_forced inv ran matching
    | merge v w isCopy => exact merge_forced inv ran matching
    | travel v calls => exact travel_forced inv ran gave

/-- A packet of one descriptor without room around it. -/
def exampleStore : Store Unit :=
  ⟨fun _ => some ⟨4, 0, 0, 1, none, none, none, [some ⟨100, 0, 4⟩]⟩, fun _ => 1⟩

def exampleLists : Lists Unit := ⟨fun _ => some [⟨100, 0, 4⟩], fun _ => 1⟩

/-- A travel over the packet, and then a descriptor in front of it. -/
theorem buffers_grow : Follows step spec (fun op a _ _ out => out = specOut op a) Matches
    [.travel () 1, .add () ⟨200, 0, 8⟩] exampleStore exampleLists := by
  have inv : Inv exampleStore exampleLists := by
    refine ⟨fun v => .packet ⟨⟨[], [], rfl, rfl⟩, rfl, rfl, rfl, ?_, ?_, ?_⟩, rfl⟩
    · simp
    · simp
    · decide
  apply (buffers_iff inv [.travel () 1, .add () ⟨200, 0, 8⟩]).mpr
  refine ⟨Nat.le_refl 1, ?_⟩
  intro s' out ran
  cases ran
  refine ⟨?_, fun _ _ _ => trivial⟩
  intro _
  exact ⟨_, rfl, rfl, by decide⟩

/-- A descriptor for a packet that is NULL is copied to a pointer that was never set. -/
theorem buffers_first : Inv (⟨fun _ => none, fun _ => 1⟩ : Store Unit) ⟨fun _ => none, fun _ => 1⟩ ∧
    ¬ Follows step spec (fun op a _ _ out => out = specOut op a) Matches
      [.add () ⟨100, 0, 4⟩] (⟨fun _ => none, fun _ => 1⟩ : Store Unit)
      ⟨fun _ => none, fun _ => 1⟩ := by
  refine ⟨⟨fun _ => .null, rfl⟩, ?_⟩
  rintro ⟨_, s', out, ran, _⟩
  cases ran

end MoonInWater.Packet
