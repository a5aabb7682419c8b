import MoonInWater.RingBuffer.Fifo

/-! ring_read with RING_PEEK: bytes behind some that are skipped, which stay in the ring. -/
namespace MoonInWater.RingBuffer
open CInt Circular
variable {B : Type} {bufferLen k n : Nat} {r r' : Ring B} {c c' : Call B} {a : Args B}

/-- How many of `len` bytes can be read behind the first `k` bytes. -/
def peekable (bufferLen : Nat) (r : Ring B) (k len : Nat) : Nat :=
  min (min len (bufferLen - k)) (used r - k)

/-- The call has returned the bytes behind the first `k`, and the ring is what it was. -/
structure Peeked (bufferLen : Nat) (r : Ring B) (a : Args B) (k : Nat) (r' : Ring B) (c' : Call B) :
    Prop where
  returned : c'.pc = .done (peekable bufferLen r k a.data.length)
  data : c'.data = ((content r).drop k).take (peekable bufferLen r k a.data.length) ++
    a.data.drop (peekable bufferLen r k a.data.length)
  cur : r'.cur = r.cur
  endAt : r'.endAt = r.endAt
  content : content r' = content r

/-- The bytes of the ring go around the end of the storage, and `k` of them already reach it. -/
def SkipsAround (r : Ring B) (k : Nat) : Prop := r.endAt < r.cur ∧ r.length ≤ r.cur + k

instance (r : Ring B) (k : Nat) : Decidable (SkipsAround r k) :=
  inferInstanceAs (Decidable (_ ∧ _))

/-- A read that peeks before its first turn. -/
def Args.peekCall (a : Args B) (bufferLen k : Nat) : Call B :=
  ⟨a.op, a.flags, a.data, (min a.data.length (bufferLen - k) : Nat), k,
    if a.flags.timeout then tvAddup a.timeout a.now else ⟨0, 0⟩, 0, [], .entry⟩

theorem enter_peek (ok : r.Ok bufferLen) (read : a.op = .read) (peek : a.flags.peek = true)
    (bytes : a.flags.msgmode = false) (skip : a.peekSkip = k) (accepted : k < bufferLen)
    (some' : 0 < a.data.length) (unsigned : a.data.length < 2 ^ 32) :
    enter r a = a.peekCall bufferLen k := by
  have length := ok.length
  have small := ok.small
  have wraps : u32 (i32 a.data.length) = a.data.length := by
    simp only [u32, i32]
    omega
  have taken : ¬ ((k : Int) < 0 ∨ (r.length : Int) - 1 ≤ k) := by omega
  have need : (if (r.length : Int) - 1 - k < u32 (i32 a.data.length) then (r.length : Int) - 1 - k
      else i32 a.data.length) = (min a.data.length (bufferLen - k) : Nat) := by
    rw [wraps]
    split
    · omega
    · rw [i32_eq (by omega) (by omega)]
      omega
  simp only [enter, read, if_neg (Nat.ne_of_gt some'), peek, if_true, skip, if_neg taken, bytes,
    Bool.false_eq_true, false_and, if_false, need, Args.peekCall]

theorem readOver_ring (r : Ring B) (c : Call B) :
    ∃ cond, readOver r c = ({ r with conReader := cond }, c.ret c.already) := by
  rw [readOver]
  split
  · exact ⟨_, rfl⟩
  · exact ⟨_, rfl⟩

/-- A turn that does not wait returns what it has copied, or -1 on a closed ring without bytes. -/
theorem readTail_nowait (now : TimeVal) (can need : Int) (r : Ring B) {c : Call B}
    (nowait : c.flags.nowait = true) :
    ∃ cond, readTail now can need r c = ({ r with conReader := cond },
      c.ret (if can < need ∧ r.isDestroy = true ∧ c.already ≤ 0 then -1 else c.already)) := by
  rw [readTail]
  by_cases rest : need < can
  · rw [if_pos rest, if_neg (by omega)]
    exact ⟨_, rfl⟩
  rw [if_neg rest]
  by_cases same : can = need
  · rw [if_pos same, if_neg (by omega)]
    exact readOver_ring r c
  rw [if_neg same]
  by_cases closed : r.isDestroy = true
  · rw [if_pos closed]
    refine ⟨r.conReader, ?_⟩
    by_cases some' : 0 < c.already
    · rw [if_pos some', if_neg (by omega)]
    · rw [if_neg some', if_pos ⟨by omega, closed, by omega⟩]
  · rw [if_neg closed, if_pos (.inr (.inl nowait)), if_neg (fun all => closed all.2.1)]
    exact readOver_ring r c

section turn
variable (now : TimeVal)

theorem peek_unfolded (ok : r.Ok bufferLen) (bytes : a.flags.msgmode = false)
    (accepted : k < bufferLen) (size : min a.data.length (bufferLen - k) = n) :
    readSection now r (a.peekCall bufferLen k) =
      (if 0 < min ((used r : Int) - k) n then
        readMove r (a.peekCall bufferLen k) (min ((used r : Int) - k) n)
      else some (r, a.peekCall bufferLen k)).bind
        fun p => some (readTail now (used r - k) n p.1 p.2) := by
  have small := ok.small
  have can := canRead_skip ok (c := a.peekCall bufferLen k) (k := k) rfl accepted.le
  have need : i32 ((a.peekCall bufferLen k).need - (a.peekCall bufferLen k).already) = n := by
    simp only [Args.peekCall, Int.sub_zero, size]
    exact i32_eq (by omega) (by omega)
  have really : msgWhole (a.peekCall bufferLen k).flags
      (if (used r : Int) - k < n then (used r : Int) - k else n) n =
        min ((used r : Int) - k) n := by
    simp only [msgWhole, Args.peekCall, bytes, Bool.false_eq_true, false_and, if_false]
    omega
  rw [readSection, can, need]
  simp only [really, Option.bind_eq_bind]
  split <;> rfl

/-- Where there is nothing to read, the turn returns 0, or -1 on a closed ring. -/
theorem peek_none (ok : r.Ok bufferLen) (bytes : a.flags.msgmode = false)
    (nowait : a.flags.nowait = true) (accepted : k < bufferLen) (some' : 0 < a.data.length)
    (short : used r ≤ k) : ∃ cond, readSection now r (a.peekCall bufferLen k) =
      some ({ r with conReader := cond },
        (a.peekCall bufferLen k).ret (if r.isDestroy = true then -1 else 0)) := by
  have unfolded := peek_unfolded now ok bytes accepted rfl
  rw [if_neg (by omega), Option.bind_some] at unfolded
  obtain ⟨cond, tail⟩ := readTail_nowait now (used r - k) (min a.data.length (bufferLen - k) : Nat)
    r (c := a.peekCall bufferLen k) nowait
  refine ⟨cond, ?_⟩
  rw [unfolded, tail]
  have less : (used r : Int) - k < (min a.data.length (bufferLen - k) : Nat) := by omega
  simp only [less, true_and, Args.peekCall, le_refl, and_true]

/-- Where there are bytes, and they do not start around the end of the storage, the turn
returns them. -/
theorem peek_some (ok : r.Ok bufferLen) (peek : a.flags.peek = true)
    (bytes : a.flags.msgmode = false) (nowait : a.flags.nowait = true) (accepted : k < bufferLen)
    (some' : 0 < a.data.length) (more : k < used r) (straight : ¬ SkipsAround r k) :
    ∃ r' c', readSection now r (a.peekCall bufferLen k) = some (r', c') ∧
      Peeked bufferLen r a k r' c' := by
  have capacity := ok.length
  have less := used_lt ok
  have size := ok.buffer
  have before : r.cur + k < r.length := by
    rw [SkipsAround] at straight
    rcases used_cases ok with ⟨order, same⟩ | ⟨order, same⟩
    · have := ok.endAt
      omega
    · omega
  generalize amount : peekable bufferLen r k a.data.length = m
  rw [peekable] at amount
  have really : min ((used r : Int) - k) (min a.data.length (bufferLen - k) : Nat) = m := by omega
  have copied := readCopy_inside ok k (c := a.peekCall bufferLen k) (i := 0) (n := m) rfl rfl
    (by omega) before (show 0 + m ≤ a.data.length by omega)
  have shown : window r.buffer (r.cur + k) m = ((content r).drop k).take m := by
    rw [content, window_drop (by omega) more.le, window_take (by omega)]
  have count : (window r.buffer (r.cur + k) m).length = m := length_window (by omega)
  have moved : readMove r (a.peekCall bufferLen k) m = some (r, { a.peekCall bufferLen k with
      data := overwrite a.data 0 (window r.buffer (r.cur + k) m)
      already := m
      moved := slice (overwrite a.data 0 (window r.buffer (r.cur + k) m)) 0 m }) := by
    rw [readMove, copied]
    simp only [Option.bind_eq_bind, Option.bind_some, Args.peekCall, peek, if_true, Int.zero_add,
      List.nil_append]
  have unfolded := peek_unfolded now ok bytes accepted rfl
  rw [really, if_pos (by omega), moved, Option.bind_some] at unfolded
  obtain ⟨cond, tail⟩ := readTail_nowait now (used r - k) (min a.data.length (bufferLen - k) : Nat)
    r (c := { a.peekCall bufferLen k with
      data := overwrite a.data 0 (window r.buffer (r.cur + k) m)
      already := m
      moved := slice (overwrite a.data 0 (window r.buffer (r.cur + k) m)) 0 m }) nowait
  have copies : ¬ ((m : Int) ≤ 0) := by omega
  simp only [copies, and_false, if_false] at tail
  rw [tail] at unfolded
  refine ⟨_, _, unfolded, ?_, ?_, rfl, rfl, rfl⟩
  · rw [Call.ret, peekable, amount]
  · have written : overwrite a.data 0 (window r.buffer (r.cur + k) m) =
        ((content r).drop k).take m ++ a.data.drop m := by
      rw [overwrite, List.take_zero, List.nil_append, count, Nat.zero_add, shown]
    rw [peekable, amount, ← written]
    rfl

/-- Where the first byte lies around the end of the storage, the copy reads beyond it. -/
theorem peek_around (ok : r.Ok bufferLen) (bytes : a.flags.msgmode = false)
    (accepted : k < bufferLen) (some' : 0 < a.data.length) (more : k < used r)
    (around : SkipsAround r k) : readSection now r (a.peekCall bufferLen k) = none := by
  obtain ⟨order, beyond⟩ := around
  have size := ok.buffer
  have tmp := tmp_eq ok ok.cur.le
  have positive : 0 < min ((used r : Int) - k) (min a.data.length (bufferLen - k) : Nat) := by omega
  have stray : readCopy r (a.peekCall bufferLen k)
      (min ((used r : Int) - k) (min a.data.length (bufferLen - k) : Nat)) = none := by
    have late : ¬ ((k : Int) < r.length - r.cur) := by omega
    simp only [readCopy, Args.peekCall, tmp, late, false_and, and_false, if_false]
    rw [memcpy, if_neg (by omega)]
  rw [peek_unfolded now ok bytes accepted rfl, if_pos positive, readMove, stray]
  rfl

/-- ring_read with RING_PEEK and RING_NOWAIT returns the bytes behind the skipped ones, unless
those lie around the end of the storage, or there are none and the ring is closed. -/
theorem read_peeks_iff (ok : r.Ok bufferLen) (read : a.op = .read) (peek : a.flags.peek = true)
    (nowait : a.flags.nowait = true) (bytes : a.flags.msgmode = false) (skip : a.peekSkip = k)
    (accepted : k < bufferLen) (some' : 0 < a.data.length) (unsigned : a.data.length < 2 ^ 32) :
    (∃ r' c', firstTurn now r a = some (r', c') ∧ Peeked bufferLen r a k r' c') ↔
      if k < used r then ¬ SkipsAround r k else r.isDestroy = false := by
  have entered := enter_peek ok read peek bytes skip accepted some' unsigned
  have turn : firstTurn now r a = readSection now r (a.peekCall bufferLen k) := by
    rw [firstTurn, entered]
    simp only [runSection, Args.peekCall, read]
  rw [turn]
  by_cases more : k < used r
  · rw [if_pos more]
    constructor
    · rintro ⟨r', c', ran, _⟩
      intro around
      rw [peek_around now ok bytes accepted some' more around] at ran
      contradiction
    · intro straight
      exact peek_some now ok peek bytes nowait accepted some' more straight
  · rw [if_neg more]
    have none : peekable bufferLen r k a.data.length = 0 := by
      rw [peekable]
      omega
    obtain ⟨cond, ran⟩ := peek_none now ok bytes nowait accepted some' (Nat.le_of_not_lt more)
    constructor
    · rintro ⟨r', c', same, peeked⟩
      rw [ran] at same
      obtain ⟨rfl, rfl⟩ := Prod.mk.inj (Option.some.inj same)
      have returned := Pc.done.inj peeked.returned
      rw [none] at returned
      by_contra closed
      rw [if_pos (by simpa using closed)] at returned
      contradiction
    · intro opened
      refine ⟨_, _, ran, ?_, ?_, rfl, rfl, rfl⟩
      · rw [none, opened]
        rfl
      · rw [none]
        rfl

end turn

section example_runs

/-- Three bytes in three places, read, and three more: two before the end of the storage and
one behind it. -/
def peekSchedule : List (Args Nat ⊕ Nat × Answer) :=
  [starts .write noFlags [1, 2, 3], turn 0, starts .read noFlags [0, 0], turn 1,
    starts .write noFlags [4, 5], turn 2]

def peekArgs (k : Nat) (data : List Nat) : Args Nat :=
  ⟨.read, { noFlags with peek := true, nowait := true }, data, k, ⟨0, 0⟩, ⟨0, 0⟩⟩

def peekRing : Ring Nat := ⟨false, 2, 1, 4, noFlags, ⟨0, 0⟩, ⟨0, 0⟩, [5, 2, 3, 4]⟩

/-- A peek that starts at the last place and goes on at the first. -/
theorem read_peeks_wrap : ∃ r' c',
    firstTurn ⟨0, 0⟩ peekRing (peekArgs 1 [0, 0]) = some (r', c') ∧
      Peeked 3 peekRing (peekArgs 1 [0, 0]) 1 r' c' := by
  have ok : peekRing.Ok 3 := ⟨rfl, by decide, by decide, rfl, by decide, by decide⟩
  apply (read_peeks_iff (k := 1) _ ok rfl rfl rfl rfl rfl (by decide) (by decide) (by decide)).mpr
  decide

/-- A peek at the byte that lies at the first place reads beyond the storage. -/
theorem read_peek_beyond : ∃ s : Threads.Config (Shared Nat) (Call Nat),
    Runs (initial 3 noFlags [0, 0, 0, 0]) s ∧ content s.shared.ring = [3, 4, 5] ∧
      firstTurn ⟨0, 0⟩ s.shared.ring (peekArgs 2 [0]) = none := by
  have ran : ((calls.exec Plain peekSchedule (initial 3 noFlags [0, 0, 0, 0])).map fun s =>
      (content s.shared.ring, (firstTurn ⟨0, 0⟩ s.shared.ring (peekArgs 2 [0])).isNone)) =
        some ([3, 4, 5], true) := by with_unfolding_all rfl
  obtain ⟨s, executed, facts⟩ := Option.map_eq_some_iff.mp ran
  obtain ⟨holds, stray⟩ := Prod.mk.inj facts
  exact ⟨s, Threads.Program.exec_reaches executed, holds, Option.isNone_iff_eq_none.mp stray⟩

end example_runs
end MoonInWater.RingBuffer
