import MoonInWater.Packet.Buffers
import Mathlib.Data.List.Perm.Basic

/-! Packets split into pieces, compared with the bytes of their descriptors. -/
namespace MoonInWater.Packet
open CInt Block Machine
variable {head : BufHead} {d e : BufDesc} {ds es front rear : List BufDesc} {off len : Int}

/-- The bytes of a descriptor, by their buffer and their place in it. -/
def bytes (d : BufDesc) : List (Nat × Int) :=
  (List.range d.len.toNat).map fun i : Nat => (d.buf, d.offset + i)

def bytesOf (ds : List BufDesc) : List (Nat × Int) := ds.flatMap bytes

@[simp] theorem bytes_length (d : BufDesc) : (bytes d).length = d.len.toNat := by simp [bytes]

@[simp] theorem bytesOf_nil : bytesOf [] = [] := rfl

@[simp] theorem bytesOf_cons (d : BufDesc) (ds : List BufDesc) :
    bytesOf (d :: ds) = bytes d ++ bytesOf ds := rfl

@[simp] theorem bytesOf_append (ds es : List BufDesc) :
    bytesOf (ds ++ es) = bytesOf ds ++ bytesOf es := List.flatMap_append

theorem bytesOf_length (positive : ∀ d ∈ ds, 0 < d.len) :
    (bytesOf ds).length = (lens ds).toNat := by
  induction ds with
  | nil => rfl
  | cons d ds ih =>
    have rest := fun e member => positive e (List.mem_cons_of_mem d member)
    have first := positive d List.mem_cons_self
    have nonneg := lens_nonneg rest
    rw [bytesOf_cons, List.length_append, bytes_length, ih rest, lens_cons]
    omega

/-- The bytes of a descriptor from a place on. -/
theorem bytes_drop (nonneg : 0 ≤ off) :
    bytes { d with offset := d.offset + off, len := d.len - off } =
      (bytes d).drop off.toNat := by
  apply List.ext_getElem?
  intro i
  simp only [bytes, List.getElem?_map, List.getElem?_drop]
  by_cases inside : i < (d.len - off).toNat
  · have inside' : off.toNat + i < d.len.toNat := by omega
    rw [List.getElem?_range inside, List.getElem?_range inside', Option.map_some, Option.map_some]
    congr 2
    omega
  · have outside : ¬ off.toNat + i < d.len.toNat := by omega
    rw [List.getElem?_eq_none (by simpa using inside),
      List.getElem?_eq_none (by simpa using outside)]
    rfl

theorem bytes_take (small : len ≤ d.len) :
    bytes { d with len := len } = (bytes d).take len.toNat := by
  have count : min len.toNat d.len.toNat = len.toNat := by omega
  rw [bytes, bytes, ← List.map_take, List.take_range, count]

/-- The place of a split: a descriptor, and the bytes of it that are in front of the place. -/
structure At (ds : List BufDesc) (j : Nat) (off : Int) (rest : List (Nat × Int)) : Prop where
  inside : j ≤ ds.length
  nonneg : 0 ≤ off
  within : ∀ d, ds[j]? = some d → off < d.len
  ended : ds.length ≤ j → off = 0
  rest : rest = (bytesOf (ds.drop j)).drop off.toNat

theorem At.cons {j : Nat} {rest : List (Nat × Int)} (at' : At ds j off rest) (d : BufDesc) :
    At (d :: ds) (j + 1) off rest :=
  ⟨by simpa using at'.inside, at'.nonneg, at'.within,
    fun end' => at'.ended (by simpa using end'), at'.rest⟩

/-- The loop of begin_split_packet finds the place of a byte. -/
theorem findSplit_eq (cells : List (Option BufDesc)) (positive : ∀ d ∈ ds, 0 < d.len)
    (nonneg : 0 ≤ len) (less : len < lens ds) (i : Nat) :
    ∃ j off, findSplit (ds.map some ++ cells) ds.length i len = some (i + j, off) ∧
      At ds j off ((bytesOf ds).drop len.toNat) := by
  induction ds generalizing i len with
  | nil =>
    rw [lens_nil] at less
    omega
  | cons d ds ih =>
    rw [List.map_cons, List.cons_append, List.length_cons, findSplit]
    simp only [Option.bind_eq_bind, Option.bind_some]
    by_cases here : len < d.len
    · rw [if_pos here]
      refine ⟨0, len, rfl, Nat.zero_le _, nonneg, ?_, by simp, rfl⟩
      intro d' found
      cases found
      exact here
    · rw [if_neg here]
      rw [lens_cons] at less
      have rest := fun e member => positive e (List.mem_cons_of_mem d member)
      obtain ⟨j, off, found, at'⟩ := ih rest (by omega : 0 ≤ len - d.len) (by omega) (i + 1)
      have first := positive d List.mem_cons_self
      have skip : (bytesOf (d :: ds)).drop len.toNat = (bytesOf ds).drop (len - d.len).toNat := by
        rw [bytesOf_cons, List.drop_append, bytes_length, List.drop_eq_nil_of_le
          (by rw [bytes_length]; omega), List.nil_append]
        congr 1
        omega
      rw [skip, found]
      exact ⟨j + 1, off, by rw [Nat.add_assoc, Nat.add_comm 1], at'.cons d⟩

/-- begin_split_packet goes to the byte that it is given. -/
theorem beginSplitPacket_eq (holds : Holds head ds) (pos : Int) :
    ∃ j off, beginSplitPacket head pos = some { head with
        splitNextIndex := some (head.curIndex + j)
        splitLen := some off } ∧ At ds j off ((bytesOf ds).drop pos.toNat) := by
  obtain ⟨front, rear, cells, start⟩ := holds.cells
  have last := holds.last
  have length := holds.length_pos
  rw [beginSplitPacket]
  by_cases beyond : head.bufLen ≤ pos
  · rw [if_pos beyond]
    refine ⟨ds.length, 0, by rw [last], Nat.le_refl _, Int.le_refl 0, ?_, fun _ => rfl, ?_⟩
    · intro d found
      simp at found
    · rw [holds.len] at beyond
      rw [List.drop_length, List.drop_eq_nil_of_le (by rw [bytesOf_length holds.positive]; omega)]
      rfl
  · rw [if_neg beyond]
    by_cases positive : 0 < pos
    · rw [if_pos positive]
      have cells' : head.descs.drop head.curIndex = ds.map some ++ rear := by
        rw [cells, ← start, List.append_assoc, List.drop_left]
      have count : head.lastIndex + 1 - head.curIndex = ds.length := by omega
      obtain ⟨j, off, found, at'⟩ := findSplit_eq rear holds.positive positive.le
        (by rw [← holds.len]; omega) head.curIndex
      rw [cells', count, found]
      exact ⟨j, off, rfl, at'⟩
    · rw [if_neg positive]
      refine ⟨0, 0, rfl, Nat.zero_le _, Int.le_refl 0, ?_, by omega, ?_⟩
      · intro d found
        exact holds.positive d (List.mem_of_getElem? found)
      · have zero : pos.toNat = 0 := by omega
        rw [zero]
        rfl

/-- A piece that is to be cut right: it starts at a descriptor and ends behind one, or it ends
inside a descriptor that is not its first one. -/
inductive CleanCut (off len : Int) : List BufDesc → Prop where
  | whole (front rear : List BufDesc) (filled : front ≠ []) (start : off = 0)
      (stop : len = lens front) : CleanCut off len (front ++ rear)
  | inside (d : BufDesc) (front : List BufDesc) (e : BufDesc) (rear : List BufDesc)
      (low : lens (d :: front) - off < len) (high : len < lens (d :: front) - off + e.len) :
      CleanCut off len (d :: front ++ e :: rear)

section scan
variable {tmp : Int} {cells : List (Option BufDesc)}

attribute [local simp] scanPiece

variable (cells) in
theorem scanPiece_whole (positive : ∀ d ∈ front, 0 < d.len) (nonneg : 0 ≤ tmp)
    (sum : tmp + lens front = len) (small : len < 2 ^ 31) (i : Nat) (sSplitLen : Int) :
    ∃ s, scanPiece len (front.map some ++ cells) i tmp sSplitLen =
      some (i + front.length, len, s) := by
  induction front generalizing i tmp sSplitLen with
  | nil =>
    rw [lens_nil, Int.add_zero] at sum
    refine ⟨sSplitLen, ?_⟩
    cases cells with
    | nil => rw [List.map_nil, List.nil_append, scanPiece, if_neg (by omega), sum]; rfl
    | cons c cells => rw [List.map_nil, List.nil_append, scanPiece, if_neg (by omega), sum]; rfl
  | cons d front ih =>
    rw [lens_cons] at sum
    have rest := fun e member => positive e (List.mem_cons_of_mem d member)
    have first := positive d List.mem_cons_self
    have nonneg' := lens_nonneg rest
    have exact' : i32 (tmp + d.len) = tmp + d.len := i32_eq (by omega) (by omega)
    obtain ⟨s, ran⟩ := ih rest (by omega : 0 ≤ tmp + d.len) (by omega) (i + 1) (len - tmp)
    refine ⟨s, ?_⟩
    rw [List.map_cons, List.cons_append, scanPiece, if_pos (by omega), List.length_cons]
    simp only [Option.bind_eq_bind, Option.bind_some, exact', ran]
    rw [Nat.add_assoc, Nat.add_comm 1]

variable (cells) in
theorem scanPiece_inside (positive : ∀ d ∈ front, 0 < d.len) (nonneg : 0 ≤ tmp)
    (low : tmp + lens front < len) (high : len < tmp + lens front + e.len)
    (small : tmp + lens front + e.len < 2 ^ 31) (i : Nat) (sSplitLen : Int) :
    scanPiece len (front.map some ++ some e :: cells) i tmp sSplitLen =
      some (i + (front.length + 1), tmp + lens front + e.len, len - (tmp + lens front)) := by
  induction front generalizing i tmp sSplitLen with
  | nil =>
    rw [lens_nil, Int.add_zero] at *
    have exact' : i32 (tmp + e.len) = tmp + e.len := i32_eq (by omega) (by omega)
    rw [List.map_nil, List.nil_append, scanPiece, if_pos low]
    simp only [Option.bind_eq_bind, Option.bind_some, exact']
    cases cells with
    | nil => rw [scanPiece, if_neg (by omega)]; rfl
    | cons c cells => rw [scanPiece, if_neg (by omega)]; rfl
  | cons d front ih =>
    rw [lens_cons] at low high small ⊢
    have rest := fun e member => positive e (List.mem_cons_of_mem d member)
    have first := positive d List.mem_cons_self
    have nonneg' := lens_nonneg rest
    have exact' : i32 (tmp + d.len) = tmp + d.len := i32_eq (by omega) (by omega)
    have ran := ih rest (by omega : 0 ≤ tmp + d.len) (by omega) (by omega) (by omega) (i + 1)
      (len - tmp)
    rw [List.map_cons, List.cons_append, scanPiece, if_pos (by omega), List.length_cons]
    simp only [Option.bind_eq_bind, Option.bind_some, exact', ran]
    rw [Int.add_assoc tmp, Nat.add_assoc i, Nat.add_comm 1]

end scan

theorem Holds.fetch_mid (holds : Holds head (front ++ ds ++ rear)) :
    fetch head.descs (head.curIndex + front.length) ds.length = some (ds.map some) := by
  obtain ⟨room, room', cells, start⟩ := holds.cells
  have shape : head.descs = (room ++ front.map some) ++ ds.map some ++ (rear.map some ++ room') := by
    rw [cells]
    simp
  rw [shape]
  apply Block.fetch_mid
  · simp [start]
  · simp

theorem Holds.behind (holds : Holds head (front ++ d :: rear)) :
    load head.descs (head.curIndex + front.length) = some d ∧
      ∃ cells, head.descs.drop (head.curIndex + front.length + 1) = rear.map some ++ cells := by
  obtain ⟨room, room', cells, start⟩ := holds.cells
  constructor
  · rw [cells, ← start]
    apply load_mid (Nat.le_add_right ..)
    rw [Nat.add_sub_cancel_left]
    simp
  · have shape : head.descs = (room ++ front.map some ++ [some d]) ++ (rear.map some ++ room') := by
      rw [cells]
      simp
    refine ⟨room', ?_⟩
    rw [shape, List.drop_left' (by simp [start, Nat.add_assoc])]

theorem cutPiece_whole (holds : Holds head (front ++ (d :: ds ++ rear))) :
    cutPiece head (head.curIndex + front.length) 0 (lens (d :: ds)) =
      some ⟨lens (d :: ds), ds.length + 1, head.curIndex + front.length + (ds.length + 1),
        some 0⟩ := by
  obtain ⟨loaded, cells, dropped⟩ := holds.behind
  have all := holds.positive
  have own : ∀ x ∈ ds, 0 < x.len := fun x member => all x (by simp [member])
  have first : 0 < d.len := all d (by simp)
  have before : 0 ≤ lens front := lens_nonneg fun x member => all x (by simp [member])
  have behind : 0 ≤ lens rear := lens_nonneg fun x member => all x (by simp [member])
  have nonneg := lens_nonneg own
  have total := holds.len
  have small := holds.small
  rw [List.cons_append, lens_append, lens_cons, lens_append] at total small
  rw [lens_cons, cutPiece, if_neg (by omega), loaded]
  obtain ⟨s, ran⟩ := scanPiece_whole (rear.map some ++ cells) own first.le rfl
    (by omega : d.len + lens ds < 2 ^ 31) (head.curIndex + front.length + 1)
    (i32 (d.len + lens ds + 0))
  rw [List.append_eq, List.map_append, List.append_assoc] at dropped
  simp only [Option.bind_eq_bind, Option.bind_some, dropped, Int.sub_zero, ran]
  rw [if_neg (Int.lt_irrefl _)]
  have count : head.curIndex + front.length + 1 + ds.length - (head.curIndex + front.length) =
      ds.length + 1 := by omega
  rw [count, Nat.add_assoc _ 1, Nat.add_comm 1]

theorem cutPiece_inside (holds : Holds head (front ++ (d :: ds ++ e :: rear)))
    (nonneg : 0 ≤ off) (within : off < d.len) (low : lens (d :: ds) - off < len)
    (high : len < lens (d :: ds) - off + e.len) :
    cutPiece head (head.curIndex + front.length) off len =
      some ⟨len, ds.length + 2, head.curIndex + front.length + (ds.length + 1),
        some (len - (lens (d :: ds) - off))⟩ := by
  obtain ⟨loaded, cells, dropped⟩ := holds.behind
  have all := holds.positive
  have own : ∀ x ∈ ds, 0 < x.len := fun x member => all x (by simp [member])
  have before : 0 ≤ lens front := lens_nonneg fun x member => all x (by simp [member])
  have behind : 0 ≤ lens rear := lens_nonneg fun x member => all x (by simp [member])
  have last : 0 < e.len := all e (by simp)
  have nonneg' := lens_nonneg own
  have total := holds.len
  have small := holds.small
  rw [List.cons_append, lens_append, lens_cons, lens_append, lens_cons] at total small
  rw [lens_cons] at low high ⊢
  rw [cutPiece, if_neg (by omega), loaded]
  have ran := scanPiece_inside (rear.map some ++ cells) own
    (by omega : 0 ≤ d.len - off) (by omega : d.len - off + lens ds < len)
    (by omega : len < d.len - off + lens ds + e.len) (by omega)
    (head.curIndex + front.length + 1) (i32 (len + off))
  rw [List.append_eq, List.map_append, List.map_cons, List.append_assoc, List.cons_append] at dropped
  simp only [Option.bind_eq_bind, Option.bind_some, dropped, ran]
  have left : d.len + lens ds - off = d.len - off + lens ds := by omega
  have count : head.curIndex + front.length + 1 + (ds.length + 1) -
      (head.curIndex + front.length) = ds.length + 2 := by omega
  have next : head.curIndex + front.length + 1 + (ds.length + 1) - 1 =
      head.curIndex + front.length + (ds.length + 1) := by omega
  rw [if_pos (by omega), count, next, left]

theorem takeRefs_eq (ds : List BufDesc) (refs : Nat → Nat) :
    takeRefs (ds.map some) refs = some fun b => refs b + refCount ds b := by
  induction ds generalizing refs with
  | nil => rfl
  | cons d ds ih =>
    rw [List.map_cons, takeRefs]
    simp only [Option.bind_eq_bind, Option.bind_some, ih]
    congr 1
    funext b
    by_cases same : b = d.buf
    · subst same
      rw [Function.update_self]
      simp [refCount]
      omega
    · rw [Function.update_of_ne same]
      simp [refCount, Ne.symm same]

/-- The cells of a block between the free ones. -/
def framed (ds : List BufDesc) : List (Option BufDesc) :=
  List.replicate freeDescNum none ++ ds.map some ++ List.replicate freeDescNum none

/-- A descriptor without the bytes in front of the piece. -/
def skip (off : Int) (d : BufDesc) : BufDesc := { d with offset := i32 (d.offset + off) }

variable {n n' : Nat} {left s s' : Int} {refs : Nat → Nat}

variable (refs) in
theorem getNextPacket_eq (next : head.splitNextIndex = some n) (split : head.splitLen = some off)
    (before : n ≤ head.lastIndex) (len : Int)
    (cut : cutPiece head n off len = some ⟨left, ds.length + 1, n', some s⟩)
    (fetched : fetch head.descs n (ds.length + 1) = some ((d :: ds).map some))
    (trimmed : trimPiece (framed (skip off d :: ds)) freeDescNum (freeDescNum + ds.length) off s =
      (framed es, s')) (length : es.length = ds.length + 1) :
    getNextPacket refs head len = some ((fun b => refs b + refCount es b,
      { head with
        splitNextIndex := some n'
        splitLen := some s' }), ⟨left, some (packed left es)⟩) := by
  have last : ds.length + 1 + totalFreeDescNum - freeDescNum - 1 = freeDescNum + ds.length := by
    simp only [totalFreeDescNum, freeDescNum]
    omega
  have count : freeDescNum + ds.length + 1 - freeDescNum = ds.length + 1 := by omega
  have room : List.replicate (ds.length + 1 + totalFreeDescNum) (none : Option BufDesc) =
      List.replicate freeDescNum none ++ List.replicate (ds.length + 1) none ++
        List.replicate freeDescNum none := by
    simp only [List.replicate_append_replicate, totalFreeDescNum, freeDescNum]
    congr 1
    omega
  have stored : store (List.replicate (ds.length + 1 + totalFreeDescNum) none) freeDescNum
      ((d :: ds).map some) = some (framed (d :: ds)) := by
    rw [room, store_mid (by simp) (by simp), framed]
  have moved : (framed (d :: ds)).modify freeDescNum
      (Option.map fun d => { d with offset := i32 (d.offset + off) }) =
        framed (skip off d :: ds) := by
    rw [framed, framed, List.map_cons, List.append_assoc, List.cons_append,
      modify_mid _ _ List.length_replicate.symm, List.map_cons, List.append_assoc,
      List.cons_append]
    rfl
  have own : fetch (framed es) freeDescNum (ds.length + 1) = some (es.map some) := by
    rw [framed]
    exact Block.fetch_mid (by simp) (by simp [length])
  have shape : packed left es = ⟨left, freeDescNum, freeDescNum + ds.length,
      ds.length + 1 + totalFreeDescNum, none, none, none, framed es⟩ := by
    simp only [packed, mallocHead, length, framed]
    congr 1
    omega
  rw [getNextPacket, next, split]
  simp only [Option.bind_eq_bind, Option.bind_some, cut, mallocHead, last, count, fetched, stored,
    moved, trimmed, own, takeRefs_eq]
  rw [if_neg (by omega), shape]

/-- The piece that CleanCut.whole is about. -/
theorem trim_whole : trimPiece (framed (skip 0 d :: ds)) freeDescNum (freeDescNum + ds.length) 0 0 =
    (framed (skip 0 d :: ds), 0) := rfl

/-- The piece that CleanCut.inside is about. -/
theorem trim_inside (some' : s ≠ 0) (exact' : i32 (d.len - off) = d.len - off) :
    trimPiece (framed (skip off d :: (ds ++ [e]))) freeDescNum
        (freeDescNum + (ds ++ [e]).length) off s =
      (framed ({ skip off d with len := d.len - off } :: (ds ++ [{ e with len := s }])), s) := by
  have apart : freeDescNum + (ds ++ [e]).length ≠ freeDescNum := by simp
  have first : framed (skip off d :: (ds ++ [e])) = List.replicate freeDescNum none ++
      some (skip off d) :: (ds.map some ++ some e :: List.replicate freeDescNum none) := by
    simp [framed]
  have second : List.replicate freeDescNum none ++ some { skip off d with len := d.len - off } ::
      (ds.map some ++ some e :: List.replicate freeDescNum none) =
        (List.replicate freeDescNum none ++ some { skip off d with len := d.len - off } ::
          ds.map some) ++ some e :: List.replicate freeDescNum none := by simp
  rw [trimPiece, if_pos some', if_neg apart, first, modify_mid _ _ List.length_replicate.symm]
  simp only [Option.map_some, skip, exact'] at second ⊢
  rw [second, modify_mid _ _ (by simp)]
  simp [framed]

section free

attribute [local simp] dropRefs

/-- free_total_packet of some packets, one after the other. -/
def freeTotalPackets : List BufHead → (Nat → Nat) → Option ((Nat → Nat) × List Nat)
  | [], refs => some (refs, [])
  | head :: heads, refs => do
    let (refs, freed) ← freeTotalPacket refs head
    let (refs, freed') ← freeTotalPackets heads refs
    some (refs, freed ++ freed')

/-- The references of the descriptors are given back, and a buffer whose last one this was is
freed, once. -/
theorem dropRefs_eq (ds : List BufDesc) (refs : Nat → Nat) (enough : ∀ b, refCount ds b ≤ refs b) :
    ∃ freed, dropRefs (ds.map some) refs = some (fun b => refs b - refCount ds b, freed) ∧
      freed.Nodup ∧ ∀ b, b ∈ freed ↔ 0 < refCount ds b ∧ refs b = refCount ds b := by
  induction ds generalizing refs with
  | nil => exact ⟨[], rfl, .nil, by simp [refCount]⟩
  | cons d ds ih =>
    have self : refCount (d :: ds) d.buf = refCount ds d.buf + 1 := by simp [refCount]
    have other : ∀ b, b ≠ d.buf → refCount (d :: ds) b = refCount ds b := by
      intro b other
      simp [refCount, Ne.symm other]
    have positive := enough d.buf
    rw [self] at positive
    obtain ⟨freed, ran, nodup, once⟩ := ih
      (Function.update refs d.buf (refs d.buf - 1)) (by
        intro b
        by_cases same : b = d.buf
        · subst same
          rw [Function.update_self]
          omega
        · rw [Function.update_of_ne same, ← other b same]
          exact enough b)
    have rest : (fun b => Function.update refs d.buf (refs d.buf - 1) b - refCount ds b) =
        fun b => refs b - refCount (d :: ds) b := by
      funext b
      by_cases same : b = d.buf
      · subst same
        rw [Function.update_self, self]
        omega
      · rw [Function.update_of_ne same, other b same]
    rw [rest] at ran
    rw [List.map_cons, dropRefs]
    simp only [Option.bind_eq_bind, Option.bind_some]
    rw [if_neg (by omega), ran]
    refine ⟨_, rfl, ?_, ?_⟩
    · split
      · rename_i zero
        apply List.nodup_cons.mpr
        refine ⟨?_, nodup⟩
        intro member
        obtain ⟨some', last⟩ := (once d.buf).mp member
        rw [Function.update_self] at last
        omega
      · exact nodup
    · intro b
      by_cases same : b = d.buf
      · subst same
        have inner := once d.buf
        rw [Function.update_self] at inner
        rw [self]
        split
        · rename_i zero
          simp only [List.mem_cons_self, true_iff]
          omega
        · rename_i zero
          rw [inner]
          omega
      · have inner := once b
        rw [Function.update_of_ne same] at inner
        rw [other b same]
        split
        · rw [List.mem_cons, inner]
          simp [same]
        · exact inner

theorem dropRefs_append (cells cells' : List (Option BufDesc)) (refs : Nat → Nat) :
    dropRefs (cells ++ cells') refs = (dropRefs cells refs).bind fun r =>
      (dropRefs cells' r.1).map fun r' => (r'.1, r.2 ++ r'.2) := by
  induction cells generalizing refs with
  | nil =>
    simp only [List.nil_append, dropRefs, Option.bind_some]
    exact Option.map_id'.symm
  | cons c cells ih =>
    cases c with
    | none => rfl
    | some d =>
      rw [List.cons_append, dropRefs, dropRefs]
      simp only [Option.bind_eq_bind, Option.bind_some, ih]
      by_cases gone : refs d.buf = 0
      · rw [if_pos gone, if_pos gone]
        rfl
      · rw [if_neg gone, if_neg gone]
        cases dropRefs cells (Function.update refs d.buf (refs d.buf - 1)) with
        | none => rfl
        | some r =>
          simp only [Option.bind_some]
          cases dropRefs cells' r.1 with
          | none => rfl
          | some r' =>
            simp only [Option.map_some, Option.bind_some]
            by_cases zero : refs d.buf - 1 = 0
            · rw [if_pos zero, if_pos zero]
              rfl
            · rw [if_neg zero, if_neg zero]

/-- The descriptors that free_total_packet goes through. -/
def Carries (head : BufHead) (ds : List BufDesc) : Prop :=
  fetch head.descs head.curIndex (head.lastIndex + 1 - head.curIndex) = some (ds.map some)

theorem Holds.carries (holds : Holds head ds) : Carries head ds := by
  have last := holds.last
  have count : head.lastIndex + 1 - head.curIndex = ds.length := by omega
  have whole : Holds head ([] ++ ds ++ []) := by simpa using holds
  rw [Carries, count]
  exact whole.fetch_mid

theorem Carries.descSeq (carries : Carries head ds) : Packet.descSeq head = ds.map some := by
  rw [Carries, fetch] at carries
  split at carries
  · exact Option.some.inj carries
  · contradiction

theorem freeTotalPackets_eq {heads : List BufHead} {parts : List (List BufDesc)}
    (all : List.Forall₂ Carries heads parts) (refs : Nat → Nat) :
    freeTotalPackets heads refs = dropRefs (parts.flatten.map some) refs := by
  induction all generalizing refs with
  | nil => rfl
  | @cons head ds heads parts carries _ ih =>
    rw [Carries] at carries
    rw [List.flatten_cons, List.map_append, dropRefs_append, freeTotalPackets, freeTotalPacket,
      carries]
    simp only [Option.bind_eq_bind, Option.bind_some, ih]
    cases dropRefs (ds.map some) refs with
    | none => rfl
    | some r =>
      simp only [Option.bind_some]
      cases dropRefs (parts.flatten.map some) r.1 with
      | none => rfl
      | some r' => rfl

end free

/-- A packet that is being split, with the pieces so far. -/
structure Splitting where
  refs : Nat → Nat
  head : BufHead
  pieces : List BufHead

/-- A call of get_next_packet. -/
def nextStep (len : Int) (s : Splitting) : Option (Splitting × Piece) :=
  (getNextPacket s.refs s.head len).map fun r =>
    (⟨r.1.1, r.1.2, s.pieces ++ r.2.pHead.toList⟩, r.2)

/-- The bytes of the next piece, and those behind it. -/
def wanted (len : Int) (rest : List (Nat × Int)) : List (Nat × Int) :=
  if len ≤ 0 then rest else rest.take len.toNat

def remaining (len : Int) (rest : List (Nat × Int)) : List (Nat × Int) :=
  if len ≤ 0 then [] else rest.drop len.toNat

theorem wanted_append (len : Int) (rest : List (Nat × Int)) :
    wanted len rest ++ remaining len rest = rest := by
  rw [wanted, remaining]
  by_cases end' : len ≤ 0
  · rw [if_pos end', if_pos end', List.append_nil]
  · rw [if_neg end', if_neg end', List.take_append_drop]

/-- A call behind the last byte returns 0. Any other one returns a piece with the wanted bytes and
their number, and takes a reference for each of its descriptors. -/
def Returns (len : Int) (rest : List (Nat × Int)) (s s' : Splitting) (piece : Piece) : Prop :=
  if rest = [] then piece.pHead = none ∧ piece.ret = 0 ∧ s'.refs = s.refs
  else ∃ p es, piece.pHead = some p ∧ descSeq p = es.map some ∧
    bytesOf es = wanted len rest ∧ p.bufLen = (wanted len rest).length ∧ piece.ret = p.bufLen ∧
    ∀ b, s'.refs b = s.refs b + refCount es b

/-- The packet and its pieces can be freed in any order: each buffer of the packet is freed once,
and no other one. -/
def FreesOnce (s : Splitting) (_ : List (Nat × Int)) : Prop :=
  ∀ heads, heads.Perm (s.head :: s.pieces) → ∃ refs freed,
    freeTotalPackets heads s.refs = some (refs, freed) ∧ freed.Nodup ∧
      ∀ b, b ∈ freed ↔ ∃ d, some d ∈ descSeq s.head ∧ d.buf = b

/-- The call is behind the last byte, or the piece is to be cut right; its first byte has a place
that is an `int`. -/
def CleanNext (len : Int) (s : Splitting) : Prop :=
  ∃ n off, s.head.splitNextIndex = some n ∧ s.head.splitLen = some off ∧
    (s.head.lastIndex < n ∨ ∃ d ds,
      (s.head.descs.drop n).take (s.head.lastIndex + 1 - n) = (d :: ds).map some ∧
      -2 ^ 31 ≤ d.offset + off ∧ d.offset + off < 2 ^ 31 ∧ CleanCut off len (d :: ds))

/-- A packet that has been split up to some bytes. -/
structure SplitInv (s : Splitting) (rest : List (Nat × Int)) (ds : List BufDesc) : Prop where
  holds : Holds s.head ds
  place : ∃ j off, s.head.splitNextIndex = some (s.head.curIndex + j) ∧
    s.head.splitLen = some off ∧ At ds j off rest
  parts : ∃ parts, List.Forall₂ Carries s.pieces parts ∧
    (∀ d ∈ ds, s.refs d.buf = refCount ds d.buf + refCount parts.flatten d.buf) ∧
    ∀ e ∈ parts.flatten, ∃ d ∈ ds, d.buf = e.buf

theorem refCount_append (ds es : List BufDesc) (b : Nat) :
    refCount (ds ++ es) b = refCount ds b + refCount es b := by
  simp [refCount]

theorem refCount_pos {b : Nat} : 0 < refCount ds b ↔ ∃ d ∈ ds, d.buf = b := by
  rw [refCount, List.count_pos_iff, List.mem_map]

theorem refCount_perm (same : ds.Perm es) (b : Nat) : refCount ds b = refCount es b :=
  (same.map _).count_eq b

theorem SplitInv.freesOnce {s : Splitting} {rest : List (Nat × Int)} (inv : SplitInv s rest ds) :
    FreesOnce s rest := by
  intro heads order
  obtain ⟨parts, carried, counted, known⟩ := inv.parts
  have all : List.Forall₂ Carries (s.head :: s.pieces) (ds :: parts) :=
    .cons inv.holds.carries carried
  obtain ⟨parts', carried', order'⟩ := List.perm_comp_forall₂ order all
  have counts : ∀ b, refCount parts'.flatten b = refCount ds b + refCount parts.flatten b := by
    intro b
    rw [refCount_perm order'.flatten, List.flatten_cons, refCount_append]
  have used : ∀ b, 0 < refCount parts'.flatten b ↔ ∃ d ∈ ds, d.buf = b := by
    intro b
    rw [counts]
    constructor
    · intro positive
      by_cases own : 0 < refCount ds b
      · exact refCount_pos.mp own
      · obtain ⟨e, member, rfl⟩ := refCount_pos.mp (by omega : 0 < refCount parts.flatten b)
        exact known e member
    · intro own
      have := refCount_pos.mpr own
      omega
  have exact' : ∀ b, (∃ d ∈ ds, d.buf = b) → s.refs b = refCount parts'.flatten b := by
    rintro b ⟨d, member, rfl⟩
    rw [counts]
    exact counted d member
  obtain ⟨freed, ran, nodup, once⟩ := dropRefs_eq parts'.flatten s.refs (by
    intro b
    by_cases own : 0 < refCount parts'.flatten b
    · exact Nat.le_of_eq (exact' b ((used b).mp own)).symm
    · omega)
  refine ⟨_, freed, (freeTotalPackets_eq carried' s.refs).trans ran, nodup, ?_⟩
  intro b
  rw [once b, inv.holds.descSeq, used b]
  constructor
  · rintro ⟨⟨d, member, rfl⟩, _⟩
    exact ⟨d, List.mem_map_of_mem member, rfl⟩
  · rintro ⟨d, member, rfl⟩
    obtain ⟨d', member', same⟩ := List.mem_map.mp member
    cases same
    exact ⟨⟨d, member', rfl⟩, exact' _ ⟨d, member', rfl⟩⟩

theorem bytesOf_ne_nil (positive : ∀ d ∈ ds, 0 < d.len) (filled : ds ≠ []) : bytesOf ds ≠ [] := by
  intro none
  cases ds with
  | nil => exact filled rfl
  | cons d ds =>
    have first := positive d List.mem_cons_self
    have length := congrArg List.length none
    rw [bytesOf_cons, List.length_append, bytes_length, List.length_nil] at length
    omega

theorem At.rest_ne_nil {rest : List (Nat × Int)} {j : Nat} (at' : At ds j off rest)
    (some' : j < ds.length) : rest ≠ [] := by
  intro none
  have within := at'.within ds[j] (List.getElem?_eq_getElem some')
  have length := congrArg List.length (none.symm.trans at'.rest)
  rw [List.drop_eq_getElem_cons some', List.length_drop, bytesOf_cons, List.length_append,
    bytes_length, List.length_nil] at length
  have nonneg := at'.nonneg
  omega

theorem At.end_iff {rest : List (Nat × Int)} {j : Nat} (at' : At ds j off rest) :
    rest = [] ↔ j = ds.length := by
  constructor
  · intro none
    by_contra other
    have inside := at'.inside
    exact at'.rest_ne_nil (by omega) none
  · rintro rfl
    rw [at'.rest, List.drop_length, bytesOf_nil, List.drop_nil]

theorem packed_carries (bufLen : Int) (ds : List BufDesc) : Carries (packed bufLen ds) ds := by
  have count : freeDescNum + ds.length - 1 + 1 - freeDescNum = ds.length := by
    simp only [freeDescNum]
    omega
  rw [Carries]
  simp only [packed, mallocHead, count]
  exact Block.fetch_mid (by simp) (by simp)

section next
variable {s : Splitting} {rest : List (Nat × Int)} {j : Nat}

/-- A call that makes a piece of the wanted bytes. -/
theorem next_piece (inv : SplitInv s rest ds) (some' : rest ≠ [])
    (ran : getNextPacket s.refs s.head len = some ((fun b => s.refs b + refCount es b,
      { s.head with
        splitNextIndex := some (s.head.curIndex + j)
        splitLen := some off }), ⟨len, some (packed len es)⟩))
    (bytes : bytesOf es = wanted len rest) (length : len = (wanted len rest).length)
    (place : At ds j off (remaining len rest)) (known : ∀ e ∈ es, ∃ d ∈ ds, d.buf = e.buf) :
    ∃ s' piece, nextStep len s = some (s', piece) ∧ Returns len rest s s' piece ∧
      SplitInv s' (remaining len rest) ds := by
  obtain ⟨parts, carried, counted, known'⟩ := inv.parts
  have holds := inv.holds
  rw [nextStep, ran]
  refine ⟨_, _, rfl, ?_, ?_⟩
  · rw [Returns, if_neg some']
    exact ⟨packed len es, es, rfl, (packed_carries len es).descSeq, bytes, length, rfl, fun _ => rfl⟩
  · refine ⟨⟨holds.cells, holds.last, holds.num, holds.len, holds.positive, holds.filled,
      holds.small⟩, ⟨j, off, rfl, rfl, place⟩, parts ++ [es], ?_, ?_, ?_⟩
    · exact List.rel_append carried (.cons (packed_carries len es) .nil)
    · intro d member
      have count := counted d member
      simp only [List.flatten_append, List.flatten_cons, List.flatten_nil, List.append_nil,
        refCount_append, count]
      omega
    · intro e member
      rw [List.flatten_append, List.flatten_cons, List.flatten_nil, List.append_nil] at member
      rcases List.mem_append.mp member with old | new
      · exact known' e old
      · exact known e new

/-- A piece up to a boundary. -/
theorem next_whole {fr : List BufDesc} (inv : SplitInv s rest (fr ++ (d :: ds ++ rear)))
    (next : s.head.splitNextIndex = some (s.head.curIndex + fr.length))
    (split : s.head.splitLen = some 0) (at' : At (fr ++ (d :: ds ++ rear)) fr.length 0 rest)
    (low : -2 ^ 31 ≤ d.offset) (high : d.offset < 2 ^ 31) :
    ∃ s' piece, nextStep (lens (d :: ds)) s = some (s', piece) ∧
      Returns (lens (d :: ds)) rest s s' piece ∧
      SplitInv s' (remaining (lens (d :: ds)) rest) (fr ++ (d :: ds ++ rear)) := by
  have holds := inv.holds
  have last := holds.last
  have all := holds.positive
  have own : ∀ x ∈ d :: ds, 0 < x.len := fun x member => all x (by simp at member ⊢; tauto)
  have cut := cutPiece_whole holds
  have fetched : fetch s.head.descs (s.head.curIndex + fr.length) (ds.length + 1) =
      some ((d :: ds).map some) :=
    @Holds.fetch_mid s.head (d :: ds) fr rear (by rw [List.append_assoc]; exact holds)
  have ran := getNextPacket_eq s.refs next split (by simp at last; omega)
    (lens (d :: ds)) cut fetched trim_whole rfl
  have same : skip 0 d = d := by
    rw [skip, Int.add_zero, i32_eq low high]
  rw [same, Nat.add_assoc] at ran
  have positive : ¬ lens (d :: ds) ≤ 0 := by
    have first := own d List.mem_cons_self
    have nonneg := lens_nonneg fun x member => own x (List.mem_cons_of_mem d member)
    rw [lens_cons]
    omega
  have length := bytesOf_length own
  have bytes : rest = bytesOf (d :: ds) ++ bytesOf rear := by
    rw [at'.rest, List.drop_left, bytesOf_append]
    rfl
  have first : wanted (lens (d :: ds)) rest = bytesOf (d :: ds) := by
    rw [wanted, if_neg positive, bytes, List.take_left' length]
  have behind : remaining (lens (d :: ds)) rest = bytesOf rear := by
    rw [remaining, if_neg positive, bytes, List.drop_left' length]
  apply next_piece inv (at'.rest_ne_nil (by simp)) ran first.symm
  · rw [first, length]
    omega
  · have shape : (fr ++ (d :: ds ++ rear)).drop (fr.length + (ds.length + 1)) = rear := by
      rw [← List.append_assoc, List.drop_left' (by simp)]
    refine ⟨by simp, Int.le_refl 0, ?_, fun _ => rfl, ?_⟩
    · intro x found
      exact all x (List.mem_of_getElem? found)
    · rw [behind, shape]
      rfl
  · intro e member
    exact ⟨e, by simp at member ⊢; tauto, rfl⟩

/-- A piece that ends inside a descriptor behind its first one. -/
theorem next_inside {fr mid : List BufDesc}
    (inv : SplitInv s rest (fr ++ (d :: mid ++ e :: rear)))
    (next : s.head.splitNextIndex = some (s.head.curIndex + fr.length))
    (split : s.head.splitLen = some off)
    (at' : At (fr ++ (d :: mid ++ e :: rear)) fr.length off rest)
    (low : -2 ^ 31 ≤ d.offset + off) (high : d.offset + off < 2 ^ 31)
    (above : lens (d :: mid) - off < len) (below : len < lens (d :: mid) - off + e.len) :
    ∃ s' piece, nextStep len s = some (s', piece) ∧ Returns len rest s s' piece ∧
      SplitInv s' (remaining len rest) (fr ++ (d :: mid ++ e :: rear)) := by
  have holds := inv.holds
  have last := holds.last
  have all := holds.positive
  have nonneg := at'.nonneg
  have within := at'.within d (by simp)
  have own : ∀ x ∈ d :: mid, 0 < x.len := fun x member => all x (by simp at member ⊢; tauto)
  have own' : ∀ x ∈ mid, 0 < x.len := fun x member => own x (List.mem_cons_of_mem d member)
  have rears : ∀ x ∈ rear, 0 < x.len := fun x member => all x (by simp [member])
  have before : 0 ≤ lens fr := lens_nonneg fun x member => all x (by simp [member])
  have middle := lens_nonneg own'
  have behind := lens_nonneg rears
  have last' : 0 < e.len := all e (by simp)
  have total := holds.small
  rw [lens_append, List.cons_append, lens_cons, lens_append, lens_cons] at total
  have sum : lens (d :: mid) = d.len + lens mid := lens_cons d mid
  have cut := cutPiece_inside holds nonneg within above below
  have fetched : fetch s.head.descs (s.head.curIndex + fr.length) ((mid ++ [e]).length + 1) =
      some ((d :: (mid ++ [e])).map some) :=
    @Holds.fetch_mid s.head (d :: (mid ++ [e])) fr rear (by
      rw [List.append_assoc, List.cons_append, List.append_assoc]
      exact holds)
  have exact' : i32 (d.len - off) = d.len - off := i32_eq (by omega) (by omega)
  have count : mid.length + 2 = (mid ++ [e]).length + 1 := by simp
  rw [count] at cut
  have ran := getNextPacket_eq s.refs next split (by simp at last; omega) len cut fetched
    (trim_inside (by omega) exact') (by simp)
  rw [skip, i32_eq low high, Nat.add_assoc] at ran
  have positive : ¬ len ≤ 0 := by omega
  have first : (bytes d).drop off.toNat ++ bytesOf mid =
      bytesOf ({ d with offset := d.offset + off, len := d.len - off } :: mid) := by
    rw [bytesOf_cons, bytes_drop nonneg]
  have length : ((bytes d).drop off.toNat ++ bytesOf mid).length =
      (lens (d :: mid) - off).toNat := by
    rw [List.length_append, List.length_drop, bytes_length, bytesOf_length own', sum]
    omega
  have parts : rest = (bytes d).drop off.toNat ++ bytesOf mid ++ (bytes e ++ bytesOf rear) := by
    rw [at'.rest, List.drop_left, List.cons_append, bytesOf_cons, bytesOf_append, bytesOf_cons,
      List.drop_append_of_le_length (by rw [bytes_length]; omega), List.append_assoc]
  have inside : len.toNat = ((bytes d).drop off.toNat ++ bytesOf mid).length +
      (len - (lens (d :: mid) - off)).toNat := by
    rw [length]
    omega
  have want : wanted len rest = (bytes d).drop off.toNat ++ bytesOf mid ++
      (bytes e).take (len - (lens (d :: mid) - off)).toNat := by
    rw [wanted, if_neg positive, parts, inside, List.take_length_add_append,
      List.take_append_of_le_length (by rw [bytes_length]; omega)]
  have remain : remaining len rest =
      (bytes e ++ bytesOf rear).drop (len - (lens (d :: mid) - off)).toNat := by
    rw [remaining, if_neg positive, parts, inside, List.drop_length_add_append]
  refine next_piece inv (at'.rest_ne_nil (by simp)) ran ?_ ?_ ?_ ?_
  · rw [want, first, ← bytes_take (by omega)]
    simp
  · rw [want, List.length_append, length, List.length_take, bytes_length]
    omega
  · have place : (fr ++ (d :: mid ++ e :: rear)).drop (fr.length + (mid.length + 1)) =
        e :: rear := by
      rw [← List.append_assoc, List.drop_left' (by simp)]
    refine ⟨by simp, by omega, ?_, ?_, ?_⟩
    · intro x found
      have here : (e :: rear)[0]? = some x := by
        rw [← place, List.getElem?_drop, Nat.add_zero]
        exact found
      cases here
      omega
    · intro end'
      simp only [List.length_append, List.length_cons] at end'
      omega
    · rw [place, bytesOf_cons]
      exact remain
  · intro x member
    simp only [List.mem_cons, List.mem_append, List.not_mem_nil, or_false] at member
    rcases member with rfl | inner | rfl
    · exact ⟨d, by simp, rfl⟩
    · exact ⟨x, by simp [inner], rfl⟩
    · exact ⟨e, by simp, rfl⟩

/-- A call behind the last byte. -/
theorem next_end (inv : SplitInv s rest ds)
    (next : s.head.splitNextIndex = some (s.head.curIndex + j))
    (split : s.head.splitLen = some off) (at' : At ds j off rest)
    (beyond : s.head.lastIndex < s.head.curIndex + j) (len : Int) :
    ∃ s' piece, nextStep len s = some (s', piece) ∧ Returns len rest s s' piece ∧
      SplitInv s' (remaining len rest) ds := by
  have last := inv.holds.last
  have inside := at'.inside
  have none : rest = [] := at'.end_iff.mpr (by omega)
  have stays : remaining len rest = rest := by
    rw [none, remaining, List.drop_nil, ite_self]
  have same : (⟨s.refs, s.head, s.pieces⟩ : Splitting) = s := rfl
  rw [nextStep, getNextPacket, next, split, stays]
  simp only [Option.bind_eq_bind, Option.bind_some, if_pos beyond, Option.map_some]
  refine ⟨_, _, rfl, ?_, ?_⟩
  · rw [Returns, if_pos none]
    exact ⟨rfl, rfl, rfl⟩
  · rw [Option.toList_none, List.append_nil, same]
    exact inv

theorem next_keeps (inv : SplitInv s rest ds) (clean : CleanNext len s) :
    ∃ s' piece, nextStep len s = some (s', piece) ∧ Returns len rest s s' piece ∧
      SplitInv s' (remaining len rest) ds := by
  obtain ⟨j, off, next, split, at'⟩ := inv.place
  obtain ⟨n, off', next', split', clean⟩ := clean
  cases next.symm.trans next'
  cases split.symm.trans split'
  have holds := inv.holds
  have last := holds.last
  rcases clean with beyond | ⟨d, more, cells, low, high, cut⟩
  · exact next_end inv next split at' beyond len
  · -- the descriptors from the place of the split on
    obtain ⟨room, room', block, start⟩ := holds.cells
    have count : s.head.lastIndex + 1 - (s.head.curIndex + j) = (ds.drop j).length := by
      rw [List.length_drop]
      omega
    have own : ds.drop j = d :: more := by
      rw [block, ← start, List.append_assoc, ← List.drop_drop, List.drop_left,
        List.drop_append_of_le_length (by simpa using at'.inside), ← List.map_drop] at cells
      rw [start, count, ← List.length_map some, List.take_left] at cells
      exact List.map_injective_iff.mpr (Option.some_injective _) cells
    have whole : ds = ds.take j ++ (d :: more) := by rw [← own, List.take_append_drop]
    have length : j = (ds.take j).length := (List.length_take_of_le at'.inside).symm
    generalize ds.take j = fr at whole length
    subst length
    subst whole
    generalize shape : d :: more = behind at cut inv at' ⊢
    cases cut with
    | whole front rear filled zero stop =>
      cases front with
      | nil => exact absurd rfl filled
      | cons d' front =>
        cases shape
        subst zero
        subst stop
        rw [Int.add_zero] at low high
        exact next_whole inv next split at' low high
    | inside d' front e rear above below =>
      cases shape
      exact next_inside inv next split at' low high above below

end next

/-- A piece up to the end is made with a length that was never set. -/
theorem getNextPacket_unset (refs : Nat → Nat) {n : Nat} (next : head.splitNextIndex = some n)
    (split : head.splitLen = some off) (before : n ≤ head.lastIndex)
    (toEnd : len ≤ 0 ∨ head.bufLen < len) : getNextPacket refs head len = none := by
  rw [getNextPacket, next, split]
  simp only [Option.bind_eq_bind, Option.bind_some, cutPiece, if_pos toEnd, Option.bind_none,
    if_neg (Nat.not_lt.mpr before)]
  cases fetch head.descs n _ with
  | none => rfl
  | some copied =>
    rw [Option.bind_some]
    cases store _ _ copied with
    | none => rfl
    | some descs => rfl

/-- So that dump_packet copies no packet. -/
theorem dumpPacket_unset (holds : Holds head ds) (refs : Nat → Nat) :
    dumpPacket refs head = none := by
  have last := holds.last
  have length := holds.length_pos
  rw [dumpPacket, beginSplitPacket]
  by_cases empty : head.bufLen ≤ 0
  · have filled := bytesOf_length holds.positive
    have some' := List.length_pos_iff.mpr (bytesOf_ne_nil holds.positive holds.filled)
    rw [holds.len] at empty
    omega
  · rw [if_neg empty, if_neg (Int.lt_irrefl 0)]
    have before : head.curIndex ≤ head.lastIndex := by omega
    exact @getNextPacket_unset { head with
      splitNextIndex := some head.curIndex
      splitLen := some 0 } 0 0 refs head.curIndex rfl rfl before (.inl (Int.le_refl 0))

/-- A packet whose buffers have no other references, split from a place on into pieces that are to
be cut right. -/
theorem split_pieces (refs : Nat → Nat) (holds : Holds head ds)
    (counted : ∀ d ∈ ds, refs d.buf = refCount ds d.buf) (pos : Int) (calls : List Int) :
    ∃ start, beginSplitPacket head pos = some start ∧
      (Meets nextStep CleanNext calls ⟨refs, start, []⟩ →
        Follows nextStep remaining Returns FreesOnce calls ⟨refs, start, []⟩
          ((bytesOf ds).drop pos.toNat)) := by
  obtain ⟨j, off, began, at'⟩ := beginSplitPacket_eq holds pos
  refine ⟨_, began, ?_⟩
  have inv : SplitInv ⟨refs, { head with
      splitNextIndex := some (head.curIndex + j)
      splitLen := some off }, []⟩ ((bytesOf ds).drop pos.toNat) ds :=
    ⟨⟨holds.cells, holds.last, holds.num, holds.len, holds.positive, holds.filled, holds.small⟩,
      ⟨j, off, rfl, rfl, at'⟩, [], .nil, by simpa [refCount] using counted, by simp⟩
  have keeps : ∀ len s rest, SplitInv s rest ds → CleanNext len s → ∃ s' piece,
      nextStep len s = some (s', piece) ∧ Returns len rest s s' piece ∧
        SplitInv s' (remaining len rest) ds := fun len s rest inv clean => next_keeps inv clean
  exact follows_of_meets (fun s rest inv => SplitInv.freesOnce inv) keeps inv

section example_packets

def examplePacket (ds : List BufDesc) : BufHead := packed (lens ds) ds

/-- A piece of seven bytes of two descriptors. -/
theorem split_seven : ∃ start,
    beginSplitPacket (examplePacket [⟨100, 0, 4⟩, ⟨200, 0, 6⟩]) 0 = some start ∧
      Follows nextStep remaining Returns FreesOnce [7] ⟨fun _ => 1, start, []⟩
        (bytesOf [⟨100, 0, 4⟩, ⟨200, 0, 6⟩]) := by
  have holds : Holds (examplePacket [⟨100, 0, 4⟩, ⟨200, 0, 6⟩]) [⟨100, 0, 4⟩, ⟨200, 0, 6⟩] :=
    packed_holds (by simp) (by simp) (by decide)
  obtain ⟨start, began, follows⟩ := split_pieces (fun _ => 1) holds (by simp [refCount]) 0 [7]
  refine ⟨start, began, follows ⟨?_, fun _ _ _ => trivial⟩⟩
  cases began
  refine ⟨freeDescNum, 0, rfl, rfl, .inr ⟨⟨100, 0, 4⟩, [⟨200, 0, 6⟩], rfl, by decide, by decide, ?_⟩⟩
  exact .inside ⟨100, 0, 4⟩ [] ⟨200, 0, 6⟩ [] (by decide) (by decide)

/-- A piece of two bytes of one descriptor has none. -/
theorem split_two : (Holds (examplePacket [⟨100, 0, 4⟩]) [⟨100, 0, 4⟩] ∧
      ∀ d ∈ [(⟨100, 0, 4⟩ : BufDesc)], 1 = refCount [⟨100, 0, 4⟩] d.buf) ∧
    ∃ start, beginSplitPacket (examplePacket [⟨100, 0, 4⟩]) 0 = some start ∧
      ¬ Follows nextStep remaining Returns FreesOnce [2] ⟨fun _ => 1, start, []⟩
        (bytesOf [⟨100, 0, 4⟩]) := by
  refine ⟨⟨packed_holds (by simp) (by simp) (by decide), by simp [refCount]⟩, _, rfl, ?_⟩
  rintro ⟨_, s', piece, ran, returns, _⟩
  have seq : (nextStep 2 ⟨fun _ => 1, { examplePacket [⟨100, 0, 4⟩] with
      splitNextIndex := some freeDescNum
      splitLen := some 0 }, []⟩).map (fun r => r.2.pHead.map descSeq) =
        some (some [some ⟨100, 0, 0⟩]) := by with_unfolding_all rfl
  obtain ⟨r, ran', seq⟩ := Option.map_eq_some_iff.mp seq
  cases ran.symm.trans ran'
  rw [Returns, if_neg (by decide)] at returns
  obtain ⟨p, es, made, cells, bytes, _⟩ := returns
  rw [made, Option.map_some, cells] at seq
  have own : es = [⟨100, 0, 0⟩] :=
    List.map_injective_iff.mpr (Option.some_injective _) (Option.some.inj seq)
  rw [own] at bytes
  exact absurd bytes (by decide)

end example_packets

end MoonInWater.Packet
