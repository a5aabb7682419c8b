import MoonInWater.RingBuffer.Model
import MoonInWater.Lib.Circular
import Mathlib.Data.Nat.ModEq

/-! What one section of a call that neither peeks nor replaces old bytes does to the
content of the ring and to the bytes that the call has copied. -/
namespace MoonInWater.RingBuffer
open CInt Circular
variable {B : Type}

/-- The number of bytes in the ring. -/
def used (r : Ring B) : Nat := (r.endAt + r.length - r.cur) % r.length

def content (r : Ring B) : List B := window r.buffer r.cur (used r)

/-- A ring of capacity `bufferLen`, whose storage is one byte longer. -/
structure Ring.Ok (bufferLen : Nat) (r : Ring B) : Prop where
  length : r.length = bufferLen + 1
  positive : 0 < bufferLen
  small : bufferLen + 1 < 2 ^ 31
  buffer : r.buffer.length = r.length
  cur : r.cur < r.length
  endAt : r.endAt < r.length

section used
variable {bufferLen : Nat} {r : Ring B}

theorem used_cases (ok : r.Ok bufferLen) :
    (r.cur ≤ r.endAt ∧ used r + r.cur = r.endAt) ∨
      (r.endAt < r.cur ∧ used r + r.cur = r.endAt + r.length) := by
  have := ok.cur
  have := ok.endAt
  by_cases order : r.cur ≤ r.endAt
  · refine .inl ⟨order, ?_⟩
    have shift : r.endAt + r.length - r.cur = r.endAt - r.cur + r.length := by omega
    rw [used, shift, Nat.add_mod_right, Nat.mod_eq_of_lt (by omega)]
    omega
  · refine .inr ⟨by omega, ?_⟩
    rw [used, Nat.mod_eq_of_lt (by omega)]
    omega

theorem used_lt (ok : r.Ok bufferLen) : used r < r.length := by
  have := ok.cur
  exact Nat.mod_lt _ (by omega)

theorem length_content (ok : r.Ok bufferLen) : (content r).length = used r := by
  have := used_lt ok
  rw [content, length_window (by rw [ok.buffer]; omega)]

/-- The write position is where the bytes in the ring end. -/
theorem endAt_eq (ok : r.Ok bufferLen) : r.endAt = (r.cur + used r) % r.length := by
  have := ok.endAt
  rcases used_cases ok with ⟨order, same⟩ | ⟨order, same⟩
  · rw [Nat.mod_eq_of_lt (by omega)]
    omega
  · rw [Nat.add_comm, same, Nat.add_mod_right, Nat.mod_eq_of_lt ok.endAt]

theorem used_unique (ok : r.Ok bufferLen) (ends : (r.cur + n) % r.length = r.endAt)
    (fits : n < r.length) : used r = n := by
  have less := used_lt ok
  have same : (r.cur + used r) % r.length = (r.cur + n) % r.length := by
    rw [ends, ← endAt_eq ok]
  have cancelled : Nat.ModEq r.length (used r) n := Nat.ModEq.add_left_cancel' r.cur same
  exact Nat.ModEq.eq_of_lt_of_lt cancelled less fits

theorem tmp_eq (ok : r.Ok bufferLen) (le : i ≤ r.length) :
    i32 ((r.length : Int) - i) = r.length - i := by
  have := ok.small
  have := ok.length
  exact i32_eq (by omega) (by omega)

theorem canRead_skip (ok : r.Ok bufferLen) {c : Call B} (skip : c.peekSkip = (k : Nat))
    (le : k ≤ bufferLen) : canRead r c = used r - k := by
  have := ok.small
  have := ok.length
  have := ok.cur
  have := ok.endAt
  have := used_lt ok
  have sum : (r.length : Int) - r.cur + r.endAt = ((r.endAt + r.length - r.cur : Nat) : Int) := by
    omega
  have wrap : u32 (r.length - r.cur + r.endAt) = ((r.endAt + r.length - r.cur : Nat) : Int) := by
    rw [u32_eq (by omega) (by omega), sum]
  rw [canRead, tmp_eq ok ok.cur.le]
  simp only [wrap, skip]
  rw [← Int.natCast_mod, ← used]
  exact i32_eq (by omega) (by omega)

theorem canRead_eq (ok : r.Ok bufferLen) {c : Call B} (skip : c.peekSkip = 0) :
    canRead r c = used r := by
  have whole := canRead_skip ok (k := 0) skip (Nat.zero_le _)
  rw [whole, Nat.cast_zero, Int.sub_zero]

theorem canWrite_eq (ok : r.Ok bufferLen) : canWrite r = bufferLen - used r := by
  have := ok.small
  have length := ok.length
  have := ok.cur
  have := ok.endAt
  have used_lt := used_lt ok
  have free : u32 (r.length - r.endAt + r.cur - 1) % r.length = bufferLen - used r := by
    rw [u32_eq (by omega) (by omega)]
    rcases used_cases ok with ⟨order, same⟩ | ⟨order, same⟩
    · rw [Int.emod_eq_of_lt (by omega) (by omega)]
      omega
    · have shift : (r.length : Int) - r.endAt + r.cur - 1 = r.cur - r.endAt - 1 + r.length := by
        omega
      rw [shift, Int.add_emod_right, Int.emod_eq_of_lt (by omega) (by omega)]
      omega
  rw [canWrite, tmp_eq ok ok.endAt.le]
  simp only [free]
  exact i32_eq (by omega) (by omega)

end used

section memcpy

theorem memcpy_eq (dst src : List B) {i j n : Nat} (into : i + n ≤ dst.length)
    (from' : j + n ≤ src.length) :
    memcpy dst i src j n = some (overwrite dst i ((src.drop j).take n)) := by
  have length : ((src.drop j).take n).length = n := by
    rw [List.length_take, List.length_drop]
    omega
  have bounds : (0 : Int) ≤ i ∧ (0 : Int) ≤ j ∧ (0 : Int) ≤ n ∧ (i : Int) + n ≤ dst.length ∧
      (j : Int) + n ≤ src.length := by omega
  have behind : ((i : Int) + n).toNat = i + n := by omega
  rw [memcpy, if_pos bounds, overwrite, length, behind]
  rfl

theorem overwrite_overwrite {dst front back : List B} (inside : i ≤ dst.length) :
    overwrite (overwrite dst i front) (i + front.length) back =
      overwrite dst i (front ++ back) := by
  have start : (dst.take i ++ front).length = i + front.length := by
    rw [List.length_append, List.length_take]
    omega
  simp only [overwrite, List.length_append]
  rw [List.take_left' start, List.drop_append, start,
    List.drop_eq_nil_of_le (by omega), List.nil_append, List.drop_drop]
  simp only [List.append_assoc]
  congr 4
  omega

theorem slice_overwrite {dst : List B} (bytes : List B) (inside : i ≤ dst.length) :
    slice (overwrite dst i bytes) i bytes.length = bytes := by
  have start : (dst.take i).length = i := by
    rw [List.length_take]
    omega
  simp only [slice, Int.toNat_natCast, overwrite, List.append_assoc]
  rw [List.drop_left' start, List.take_left]

theorem take_overwrite {dst bytes : List B} (inside : i ≤ dst.length) :
    (overwrite dst i bytes).take (i + bytes.length) = dst.take i ++ bytes := by
  have start : (dst.take i ++ bytes).length = i + bytes.length := by
    rw [List.length_append, List.length_take]
    omega
  exact List.take_left' start

end memcpy

section copies
variable {bufferLen i n : Nat} {r : Ring B} {c : Call B}

/-- The copy of ring_read behind the first `skip` bytes stays in the storage, unless these already
reach its end. -/
theorem readCopy_inside (ok : r.Ok bufferLen) (skip : Nat) (skips : c.peekSkip = skip)
    (already : c.already = i) (fits : skip + n ≤ used r) (before : r.cur + skip < r.length)
    (room : i + n ≤ c.data.length) :
    readCopy r c n = some (overwrite c.data i (window r.buffer (r.cur + skip) n)) := by
  have cur := ok.cur
  have endAt := ok.endAt
  have buffer := ok.buffer
  have cases' := used_cases ok
  obtain ⟨k, length⟩ := Nat.exists_eq_add_of_le before.le
  have small := ok.small
  have capacity := ok.length
  have tmp : i32 ((r.length : Int) - r.cur) = skip + k := by
    rw [tmp_eq ok ok.cur.le]
    omega
  have rest : i32 ((skip : Int) + k - skip) = k := by
    rw [i32_eq (by omega) (by omega)]
    omega
  have start : (r.cur : Int) + skip = (r.cur + skip : Nat) := by omega
  rw [readCopy]
  simp only [skips, already, tmp, rest, start]
  clear tmp rest
  by_cases wraps : r.endAt < r.cur ∧ (skip : Int) < skip + k ∧ (k : Int) < n
  · rw [if_pos wraps]
    have frontLength : (r.buffer.drop (r.cur + skip)).length = k := by
      rw [List.length_drop]
      omega
    have first := memcpy_eq c.data r.buffer (i := i) (j := r.cur + skip) (n := k)
      (by omega) (by omega)
    rw [List.take_of_length_le frontLength.le] at first
    have second := memcpy_eq (overwrite c.data i (r.buffer.drop (r.cur + skip))) r.buffer
      (i := i + k) (j := 0) (n := n - k) (by rw [length_overwrite (by omega)]; omega) (by omega)
    rw [Nat.cast_add, Nat.cast_sub (by omega), Nat.cast_zero] at second
    simp only [first, Option.bind_eq_bind, Option.bind_some]
    rw [second, List.drop_zero, ← frontLength, overwrite_overwrite (by omega), frontLength,
      window_wrapped (by omega) (by omega) (by omega)]
    congr 4
    omega
  · rw [if_neg wraps]
    have inside : r.cur + skip + n ≤ r.buffer.length := by
      rcases cases' with ⟨order, same⟩ | ⟨order, same⟩ <;> omega
    rw [memcpy_eq _ _ room inside, window_straight inside]

theorem readCopy_eq (ok : r.Ok bufferLen) (skip : c.peekSkip = 0) (already : c.already = i)
    (fits : n ≤ used r) (room : i + n ≤ c.data.length) :
    readCopy r c n = some (overwrite c.data i (window r.buffer r.cur n)) := by
  have copied := readCopy_inside ok 0 skip already (by omega) ok.cur room
  rwa [Nat.add_zero] at copied

/-- The copy of ring_write stays in the storage, unless it is one piece that goes beyond it. -/
theorem writeCopy_inside (ok : r.Ok bufferLen) (already : c.already = i) (fits : n ≤ bufferLen)
    (inside : r.endAt < r.cur → r.endAt + n ≤ r.length) (room : i + n ≤ c.data.length) :
    ∃ buffer, writeCopy r c n = some buffer ∧
      Wrote r.buffer r.endAt ((c.data.drop i).take n) buffer := by
  have endAt := ok.endAt
  have buffer := ok.buffer
  have capacity := ok.length
  obtain ⟨k, length⟩ := Nat.exists_eq_add_of_le ok.endAt.le
  have tmp : i32 ((r.length : Int) - r.endAt) = k := by
    rw [tmp_eq ok ok.endAt.le]
    omega
  have bytes : ((c.data.drop i).take n).length = n := by
    rw [List.length_take, List.length_drop]
    omega
  rw [writeCopy]
  simp only [already, tmp]
  clear tmp
  by_cases wraps : r.cur ≤ r.endAt ∧ (k : Int) < n
  · rw [if_pos wraps]
    have front : ((c.data.drop i).take k).length = k := by
      rw [List.length_take, List.length_drop]
      omega
    have first := memcpy_eq r.buffer c.data (i := r.endAt) (j := i) (n := k)
      (by omega) (by omega)
    have second := memcpy_eq (overwrite r.buffer r.endAt ((c.data.drop i).take k)) c.data
      (i := 0) (j := i + k) (n := n - k)
      (by rw [length_overwrite (by omega)]; omega) (by omega)
    rw [Nat.cast_add, Nat.cast_sub (by omega), Nat.cast_zero] at second
    have pieces : (c.data.drop i).take n =
        (c.data.drop i).take k ++ (c.data.drop (i + k)).take (n - k) := by
      rw [← List.drop_drop, ← List.take_add, Nat.add_sub_cancel' (by omega)]
    simp only [first, Option.bind_eq_bind, Option.bind_some]
    refine ⟨_, second, ?_⟩
    rw [pieces]
    apply wrote_wrapped
    · omega
    · rw [List.length_take]
      omega
  · rw [if_neg wraps]
    have inside : r.endAt + n ≤ r.buffer.length := by
      by_cases order : r.endAt < r.cur
      · have := inside order
        omega
      · omega
    refine ⟨_, memcpy_eq _ _ inside room, ?_⟩
    apply wrote_straight
    rwa [bytes]

theorem writeCopy_eq (ok : r.Ok bufferLen) (already : c.already = i)
    (fits : used r + n ≤ bufferLen) (room : i + n ≤ c.data.length) :
    ∃ buffer, writeCopy r c n = some buffer ∧
      Wrote r.buffer r.endAt ((c.data.drop i).take n) buffer := by
  have cur := ok.cur
  have capacity := ok.length
  apply writeCopy_inside ok already (by omega) _ room
  intro order
  rcases used_cases ok with ⟨_, same⟩ | ⟨_, same⟩ <;> omega

end copies
/-- What holds of a call that neither peeks nor replaces old bytes, on a ring that is
closed or not. -/
structure Call.Ok (closed : Bool) (c : Call B) : Prop where
  noPeek : c.op = .read → c.flags.peek = false
  noReplace : c.op = .write → c.flags.replaceOld = false
  small : c.data.length < 2 ^ 31
  need : c.need = c.data.length
  skip : c.peekSkip = 0
  already : c.already = c.moved.length
  fits : c.moved.length ≤ c.data.length
  copied : c.data.take c.moved.length = c.moved
  ret : ∀ v, c.pc = .done v →
    v = c.moved.length ∨ v = -1 ∧ c.moved = [] ∧ closed = true

/-- How many bytes a turn copies where `can` may be copied and `need` are asked for. -/
def amount (flags : Flags) (need can : Nat) : Nat :=
  if flags.msgmode ∧ can < need then 0 else min need can

theorem amount_le (flags : Flags) (need can : Nat) :
    amount flags need can ≤ need ∧ amount flags need can ≤ can := by
  rw [amount]
  split <;> omega

theorem really_eq (flags : Flags) (need can : Nat) :
    msgWhole flags (if (can : Int) < need then can else need) need = amount flags need can := by
  by_cases short : can < need
  · simp only [msgWhole, amount, Nat.cast_lt, short, if_true, and_true, Nat.min_eq_right short.le]
    split <;> rfl
  · have le : need ≤ can := by omega
    simp only [msgWhole, amount, Nat.cast_lt, short, if_false, lt_self_iff_false, and_false,
      Nat.min_eq_left le]

/-- How a turn ends that could copy `can` of `need` bytes, with `already` copied in
all: what becomes of the own condition variable, and where the call goes on. -/
inductive Tail (closed : Bool) (own : Cond) (can need already : Int) : Cond → Pc → Prop
  | rest : need < can → Tail closed own can need already own.signal (.done already)
  | all : can ≤ need → Tail closed own can need already own (.done already)
  | closed : can < need → closed = true → already = 0 →
      Tail closed own can need already own (.done (-1))
  | wait : can < need → closed = false → Tail closed own can need already own.wait .waiting

theorem readTail_spec (now : TimeVal) (can need : Int) (r : Ring B) {c : Call B}
    (noPeek : c.flags.peek = false) (positive : 0 ≤ c.already) :
    ∃ cond pc, readTail now can need r c =
        ({ r with conReader := cond }, { c with pc := pc }) ∧
      Tail r.isDestroy r.conReader can need c.already cond pc := by
  have returned : readOver r c = (r, c.ret c.already) := by simp [readOver, noPeek]
  rw [readTail, returned]
  by_cases rest : need < can
  · rw [if_pos rest]
    exact ⟨_, _, rfl, .rest rest⟩
  rw [if_neg rest]
  by_cases same : can = need
  · rw [if_pos same]
    exact ⟨_, _, rfl, .all (by omega)⟩
  rw [if_neg same]
  by_cases closed : r.isDestroy = true
  · rw [if_pos closed]
    by_cases some' : 0 < c.already
    · rw [if_pos some']
      exact ⟨_, _, rfl, .all (by omega)⟩
    · rw [if_neg some']
      exact ⟨_, _, rfl, .closed (by omega) closed (by omega)⟩
  rw [if_neg closed]
  split
  · exact ⟨_, _, rfl, .all (by omega)⟩
  split
  · exact ⟨_, _, rfl, .all (by omega)⟩
  · exact ⟨_, _, rfl, .wait (by omega) (Bool.eq_false_iff.mpr closed)⟩

theorem writeTail_spec (now : TimeVal) (can need : Int) {r : Ring B} (c : Call B)
    (opened : r.isDestroy = false) :
    ∃ cond pc, writeTail now can need r c =
        ({ r with conWriter := cond }, { c with pc := pc }) ∧
      Tail r.isDestroy r.conWriter can need c.already cond pc := by
  rw [writeTail]
  by_cases rest : need < can
  · rw [if_pos rest]
    exact ⟨_, _, rfl, .rest rest⟩
  rw [if_neg rest]
  by_cases same : can = need
  · rw [if_pos same]
    exact ⟨_, _, rfl, .all (by omega)⟩
  rw [if_neg same]
  split
  · exact ⟨_, _, rfl, .all (by omega)⟩
  split
  · exact ⟨_, _, rfl, .all (by omega)⟩
  · exact ⟨_, _, rfl, .wait (by omega) opened⟩

/-- The ring without its first `n` bytes. -/
def Ring.took (r : Ring B) (n : Nat) : Ring B :=
  if n = 0 then r
  else { r with cur := (r.cur + n) % r.length, conWriter := r.conWriter.signal }

/-- The ring with `n` bytes more, in the storage `buffer`. -/
def Ring.put (r : Ring B) (buffer : List B) (n : Nat) : Ring B :=
  if n = 0 then r
  else { r with
    buffer := buffer
    endAt := (r.endAt + n) % r.length
    conReader := r.conReader.signal }

/-- The call after a turn that has copied `bytes`. -/
def Call.after (c : Call B) (data bytes : List B) (pc : Pc) : Call B :=
  { c with
    data := data
    already := c.already + bytes.length
    moved := c.moved ++ bytes
    pc := pc }

section turns
variable {bufferLen n : Nat} {r : Ring B} {c : Call B}

theorem asked_eq (call : c.Ok closed) :
    i32 (c.need - c.already) = (c.data.length - c.moved.length : Nat) := by
  have fits := call.fits
  have small := call.small
  rw [call.need, call.already, ← Nat.cast_sub fits]
  exact i32_eq (by omega) (by omega)

theorem overwrite_nil (l : List B) (i : Nat) : overwrite l i [] = l := by
  rw [overwrite, List.append_nil, List.length_nil, Nat.add_zero, List.take_append_drop]

theorem wrap_eq {i n : Nat} (small : i + n < 2 ^ 32) (m : Nat) :
    (u32 ((i : Int) + n) % m).toNat = (i + n) % m := by
  rw [u32_eq (by omega) (by omega), ← Nat.cast_add, ← Int.natCast_mod, Int.toNat_natCast]

theorem readMove_eq (ok : r.Ok bufferLen) (call : c.Ok r.isDestroy) (noPeek : c.flags.peek = false)
    (le_need : n ≤ c.data.length - c.moved.length) (le_used : n ≤ used r) :
    (if (0 : Int) < n then readMove r c n else some (r, c)) =
      some (r.took n, c.after (overwrite c.data c.moved.length (window r.buffer r.cur n))
        (window r.buffer r.cur n) c.pc) := by
  have fits := call.fits
  have small := ok.small
  have length := ok.length
  have cur := ok.cur
  have less := used_lt ok
  have bytes : (window r.buffer r.cur n).length = n := length_window (by rw [ok.buffer]; omega)
  by_cases none : n = 0
  · subst none
    have empty : window r.buffer r.cur 0 = [] := List.length_eq_zero_iff.mp bytes
    rw [if_neg (by simp), empty, overwrite_nil, Call.after, Ring.took, if_pos rfl]
    simp
  · have copied := readCopy_eq ok call.skip call.already le_used (by omega)
    have wrap := wrap_eq (i := r.cur) (n := n) (by omega) r.length
    have part : slice (overwrite c.data c.moved.length (window r.buffer r.cur n)) c.already n =
        window r.buffer r.cur n := by
      have sliced := slice_overwrite (window r.buffer r.cur n) fits
      rwa [bytes, ← call.already] at sliced
    rw [if_pos (by omega), readMove, copied]
    simp only [Option.bind_eq_bind, Option.bind_some, part, noPeek, Bool.false_eq_true, if_false,
      wrap, Ring.took, if_neg none, Call.after, bytes]

theorem writeMove_eq (ok : r.Ok bufferLen) (call : c.Ok r.isDestroy)
    (le_need : n ≤ c.data.length - c.moved.length) (le_free : n + used r ≤ bufferLen) :
    let bytes := (c.data.drop c.moved.length).take n
    ∃ buffer, (0 < n → Wrote r.buffer r.endAt bytes buffer) ∧
      (if (0 : Int) < n then writeMove r c (bufferLen - used r : Nat) n else some (r, c)) =
        some (r.put buffer n, c.after c.data bytes c.pc) := by
  intro bytes
  have fits := call.fits
  have small := ok.small
  have length := ok.length
  have endAt := ok.endAt
  have count : bytes.length = n := by
    rw [List.length_take, List.length_drop]
    omega
  by_cases none : n = 0
  · subst none
    have empty : bytes = [] := List.length_eq_zero_iff.mp count
    refine ⟨r.buffer, fun positive => absurd positive (lt_irrefl 0), ?_⟩
    rw [if_neg (by simp), empty, Call.after, Ring.put, if_pos rfl]
    simp
  · obtain ⟨buffer, copied, wrote⟩ := writeCopy_eq (n := n) ok call.already (by omega) (by omega)
    refine ⟨buffer, fun _ => wrote, ?_⟩
    have wrap := wrap_eq (i := r.endAt) (n := n) (by omega) r.length
    have part : slice c.data c.already n = bytes := by
      rw [slice, call.already]
      rfl
    have kept : ¬ ((bufferLen - used r : Nat) : Int) < n := by omega
    have already : i32 (c.already + n) = c.already + n := by
      have short := call.small
      have start := call.already
      exact i32_eq (by omega) (by omega)
    rw [if_pos (by omega), writeMove, copied]
    simp only [Option.bind_eq_bind, Option.bind_some, part, wrap, if_neg kept, Ring.put,
      if_neg none, Call.after, count, already]

/-- A turn of ring_read. -/
theorem readSection_eq (now : TimeVal) (ok : r.Ok bufferLen) (call : c.Ok r.isDestroy)
    (read : c.op = .read) :
    let need := c.data.length - c.moved.length
    let bytes := window r.buffer r.cur (amount c.flags need (used r))
    ∃ cond pc, readSection now r c = some ({ r.took (amount c.flags need (used r)) with
        conReader := cond }, c.after (overwrite c.data c.moved.length bytes) bytes pc) ∧
      Tail r.isDestroy r.conReader (used r) need (c.moved ++ bytes).length cond pc := by
  intro need bytes
  obtain ⟨le_need, le_used⟩ := amount_le c.flags need (used r)
  have moved := readMove_eq ok call (call.noPeek read) le_need le_used
  have unfolded : readSection now r c =
      (if (0 : Int) < (amount c.flags need (used r) : Nat) then readMove r c
        (amount c.flags need (used r) : Nat) else some (r, c)).bind
          fun p => some (readTail now (used r) need p.1 p.2) := by
    rw [readSection, asked_eq call, canRead_eq ok call.skip]
    simp only [really_eq]
    split <;> rfl
  have tail := readTail_spec now (used r) need (r.took (amount c.flags need (used r)))
    (c := c.after (overwrite c.data c.moved.length bytes) bytes c.pc) (call.noPeek read)
    (by simp only [Call.after, call.already]; omega)
  obtain ⟨cond, pc, run, tail⟩ := tail
  refine ⟨cond, pc, ?_, ?_⟩
  · rw [unfolded, moved]
    exact congrArg some run
  · have same : (r.took (amount c.flags need (used r))).isDestroy = r.isDestroy ∧
        (r.took (amount c.flags need (used r))).conReader = r.conReader := by
      rw [Ring.took]
      split <;> exact ⟨rfl, rfl⟩
    rw [same.1, same.2, Call.after, call.already] at tail
    rwa [List.length_append, Nat.cast_add]

/-- A turn of ring_write. -/
theorem writeSection_eq (now : TimeVal) (ok : r.Ok bufferLen) (call : c.Ok r.isDestroy)
    (write : c.op = .write) (opened : r.isDestroy = false) :
    let need := c.data.length - c.moved.length
    let can := bufferLen - used r
    let bytes := (c.data.drop c.moved.length).take (amount c.flags need can)
    ∃ buffer cond pc, (0 < amount c.flags need can → Wrote r.buffer r.endAt bytes buffer) ∧
      writeSection now r c = some ({ r.put buffer (amount c.flags need can) with
        conWriter := cond }, c.after c.data bytes pc) ∧
      Tail r.isDestroy r.conWriter can need (c.moved ++ bytes).length cond pc := by
  intro need can bytes
  obtain ⟨le_need, le_free⟩ := amount_le c.flags need can
  have less := used_lt ok
  have length := ok.length
  have noReplace := call.noReplace write
  obtain ⟨buffer, wrote, moved⟩ := writeMove_eq ok call le_need
    (by have : amount c.flags need can ≤ bufferLen - used r := le_free; omega)
  have free : canWrite r = can := by
    rw [canWrite_eq ok]
    omega
  have unfolded : writeSection now r c =
      (if (0 : Int) < (amount c.flags need can : Nat) then writeMove r c can
        (amount c.flags need can : Nat) else some (r, c)).bind
          fun p => some (writeTail now can need p.1 p.2) := by
    rw [writeSection, asked_eq call, free, opened]
    simp only [noReplace, Bool.false_eq_true, false_and, if_false, really_eq]
    split <;> rfl
  have stays : (r.put buffer (amount c.flags need can)).isDestroy = r.isDestroy ∧
      (r.put buffer (amount c.flags need can)).conWriter = r.conWriter := by
    rw [Ring.put]
    split <;> exact ⟨rfl, rfl⟩
  obtain ⟨cond, pc, run, tail⟩ := writeTail_spec now can need (c.after c.data bytes c.pc)
    (stays.1.trans opened)
  refine ⟨buffer, cond, pc, wrote, ?_, ?_⟩
  · rw [unfolded, moved]
    exact congrArg some run
  · rw [stays.1, stays.2, Call.after, call.already] at tail
    rwa [List.length_append, Nat.cast_add]

end turns
end MoonInWater.RingBuffer
