import MoonInWater.RingBuffer.Fifo

/-! ring_write with RING_REPLACE_OLD: the oldest bytes make room for those of the call, of
which only the last ones count when there are more than the ring holds. -/
namespace MoonInWater.RingBuffer
open CInt Circular
variable {B : Type} {bufferLen n : Nat} {r r' : Ring B} {c c' : Call B} {bytes : List B}

def lastBytes (n : Nat) (l : List B) : List B := l.drop (l.length - n)

theorem lastBytes_append (old new : List B) (le : old.length ≤ n) :
    lastBytes n (old ++ new) = old.drop (min new.length n - (n - old.length)) ++
      new.drop (new.length - min new.length n) := by
  rw [lastBytes, List.length_append, List.drop_append]
  by_cases long : n ≤ new.length
  · have gone : old.drop (old.length + new.length - n) = [] := List.drop_eq_nil_of_le (by omega)
    have gone' : old.drop (min new.length n - (n - old.length)) = [] :=
      List.drop_eq_nil_of_le (by omega)
    have rest : old.length + new.length - n - old.length = new.length - min new.length n := by
      omega
    rw [gone, gone', rest]
  · have front : old.length + new.length - n = min new.length n - (n - old.length) := by omega
    have rest : min new.length n - (n - old.length) - old.length =
        new.length - min new.length n := by omega
    rw [front, rest]

/-- The call has returned its length, and its bytes are the newest of the ring. -/
structure Replaced (bufferLen : Nat) (r : Ring B) (a : Args B) (r' : Ring B) (c' : Call B) :
    Prop where
  returned : c'.pc = .done a.data.length
  ring : r'.Ok bufferLen
  content : content r' = lastBytes bufferLen (content r ++ a.data)

/-- The bytes of the ring go around the end of the storage, and those to be written, which are
copied in one piece, do not fit before the end. -/
def Overruns (bufferLen : Nat) (r : Ring B) (len : Nat) : Prop :=
  r.endAt < r.cur ∧ r.length < r.endAt + min len bufferLen

instance (r : Ring B) (len : Nat) : Decidable (Overruns bufferLen r len) :=
  inferInstanceAs (Decidable (_ ∧ _))

/-- The ring without its first `k` bytes and with `n` more in `buffer`. -/
def Ring.renewed (r : Ring B) (buffer : List B) (k n : Nat) : Ring B :=
  { r with
    buffer := buffer
    endAt := (r.endAt + n) % r.length
    cur := (r.cur + k) % r.length
    conReader := r.conReader.signal }

/-- What the ring holds after it has lost its first bytes and got new ones. -/
theorem renewed_spec (ok : r.Ok bufferLen) {buffer : List B} {k : Nat}
    (wrote : Wrote r.buffer r.endAt bytes buffer) (count : bytes.length = n) (positive : 0 < n)
    (le : k ≤ used r) (fits : used r - k + n ≤ bufferLen) :
    (r.renewed buffer k n).Ok bufferLen ∧
      content (r.renewed buffer k n) = (content r).drop k ++ bytes := by
  have taken := ok.took k
  have same : (r.took k).buffer = r.buffer ∧ (r.took k).endAt = r.endAt ∧
      (r.took k).cur = (r.cur + k) % r.length ∧ (r.took k).length = r.length := by
    rw [Ring.took]
    split
    · rename_i none
      rw [none, Nat.add_zero, Nat.mod_eq_of_lt ok.cur]
      exact ⟨rfl, rfl, rfl, rfl⟩
    · exact ⟨rfl, rfl, rfl, rfl⟩
  obtain ⟨sameBuffer, sameEnd, sameCur, sameLength⟩ := same
  have wrote' : Wrote (r.took k).buffer (r.took k).endAt bytes buffer := by
    rwa [sameBuffer, sameEnd]
  have put := taken.put (n := n) fun _ => wrote'
  have held := content_put taken count (fun _ => wrote') (by rw [used_took ok le]; exact fits)
  have dropped : content (r.took k) = (content r).drop k := by
    have whole := content_took ok le
    have front : (window r.buffer r.cur k).length = k := by
      have less := used_lt ok
      exact length_window (by rw [ok.buffer]; omega)
    rw [whole, List.drop_left' front]
  rw [dropped] at held
  -- the two rings differ in the condition variables only
  rw [Ring.put, if_neg (Nat.ne_of_gt positive)] at put held
  have fields : used (r.renewed buffer k n) = used { r.took k with
      buffer := buffer
      endAt := ((r.took k).endAt + n) % (r.took k).length
      conReader := (r.took k).conReader.signal } := by
    simp only [used, Ring.renewed, sameEnd, sameCur, sameLength]
  constructor
  · have cur := put.cur
    have endAt := put.endAt
    have size := put.buffer
    simp only [sameEnd, sameCur, sameLength] at cur endAt size
    exact ⟨ok.length, ok.positive, ok.small, size, cur, endAt⟩
  · rw [← held, content, content, fields]
    simp only [Ring.renewed, sameCur]

section call
variable {a : Args B} {m : Nat}

/-- A write before its first turn, or with the bytes before `i` left out. -/
def Args.callFrom (a : Args B) (i : Nat) : Call B :=
  ⟨a.op, a.flags, a.data, i32 a.data.length, 0,
    if a.flags.timeout then tvAddup a.timeout a.now else ⟨0, 0⟩, i, [], .entry⟩

theorem enter_write (ok : r.Ok bufferLen) (write : a.op = .write) (some' : 0 < a.data.length) :
    enter r a = if a.flags.msgmode ∧ bufferLen < a.data.length then (a.callFrom 0).ret 0
      else a.callFrom 0 := by
  have length := ok.length
  have same : ((r.length : Int) - 1 < a.data.length) = (bufferLen < a.data.length) := by
    rw [eq_iff_iff]
    omega
  simp only [enter, write, if_neg (Nat.ne_of_gt some'), same, Args.callFrom]
  rfl

theorem writeTail_ret (now : TimeVal) (can need : Int) (r : Ring B) (c : Call B) :
    (writeTail now can need r c).2 = c.ret c.already ∨
      (writeTail now can need r c).2.pc = .waiting := by
  rw [writeTail]
  split
  · exact .inl rfl
  split
  · exact .inl rfl
  split
  · exact .inl rfl
  split
  · exact .inl rfl
  · exact .inr rfl

theorem writeTail_replaces (now : TimeVal) (can need : Int) (r : Ring B) {c : Call B}
    (replace : c.flags.replaceOld = true) :
    ∃ cond, writeTail now can need r c = ({ r with conWriter := cond }, c.ret c.already) := by
  rw [writeTail]
  split
  · exact ⟨_, rfl⟩
  split
  · exact ⟨_, rfl⟩
  · exact ⟨_, if_pos (.inl replace)⟩

/-- The turn of a write that replaces old bytes, where its length is an `int`. -/
theorem replace_unfolded (now : TimeVal) (ok : r.Ok bufferLen) (opened : r.isDestroy = false)
    (replace : a.flags.replaceOld = true) (some' : 0 < a.data.length)
    (small : a.data.length < 2 ^ 31) (size : min a.data.length bufferLen = m) :
    writeSection now r (a.callFrom 0) =
      (writeMove r (a.callFrom (a.data.length - m)) (bufferLen - used r) m).bind
        fun p => some (writeTail now (bufferLen - used r) m p.1 p.2) := by
  have length := ok.length
  have positive := ok.positive
  have capacity := ok.small
  have need : i32 a.data.length = a.data.length := i32_eq (by omega) (by omega)
  have unsigned : u32 a.data.length = a.data.length := u32_eq (by omega) (by omega)
  have room : i32 (r.length - 1) = bufferLen := by
    rw [i32_eq (by omega) (by omega)]
    omega
  simp only [writeSection, opened, Bool.false_eq_true, if_false, Args.callFrom, Nat.cast_zero,
    Int.sub_zero, need, unsigned, replace, true_and, canWrite_eq ok, room]
  by_cases long : bufferLen < a.data.length
  · have skips : (r.length : Int) - 1 < a.data.length := by omega
    have start : i32 (0 + (a.data.length : Int) - r.length + 1) = (a.data.length - m : Nat) := by
      rw [i32_eq (by omega) (by omega)]
      omega
    have all : (m : Int) = bufferLen := by omega
    simp only [if_pos skips, start, all, msgWhole, lt_irrefl, and_false, if_false,
      Int.natCast_pos.mpr positive, if_true, replace]
    rfl
  · have skips : ¬ (r.length : Int) - 1 < a.data.length := by omega
    have start : ((a.data.length - m : Nat) : Int) = 0 := by omega
    have all : (m : Int) = a.data.length := by omega
    simp only [if_neg skips, start, all, msgWhole, lt_irrefl, and_false, if_false,
      Int.natCast_pos.mpr some', if_true, replace]
    rfl

/-- A write that replaces old bytes and stays in the storage. -/
theorem writeSection_replaces (now : TimeVal) (ok : r.Ok bufferLen) (opened : r.isDestroy = false)
    (replace : a.flags.replaceOld = true) (some' : 0 < a.data.length)
    (small : a.data.length < 2 ^ 31) (inside : ¬ Overruns bufferLen r a.data.length) :
    ∃ r' c', writeSection now r (a.callFrom 0) = some (r', c') ∧ Replaced bufferLen r a r' c' := by
  have capacity := ok.small
  have length := ok.length
  have endAt := ok.endAt
  have cur := ok.cur
  have less := used_lt ok
  generalize size : min a.data.length bufferLen = m
  have positive : 0 < m := by
    have := ok.positive
    omega
  have shift : a.data.length - m + m = a.data.length := by omega
  -- the last bytes of the input go over the free places and those of the oldest bytes
  obtain ⟨buffer, copied, wrote⟩ := writeCopy_inside (n := m) ok
    (c := a.callFrom (a.data.length - m)) rfl (by omega)
    (fun order => by
      rw [Overruns, size] at inside
      omega) shift.le
  have newest : (a.data.drop (a.data.length - m)).take m = a.data.drop (a.data.length - m) :=
    List.take_of_length_le (by rw [List.length_drop]; omega)
  simp only [Args.callFrom, newest] at wrote
  have count : (a.data.drop (a.data.length - m)).length = m := by
    rw [List.length_drop]
    omega
  obtain ⟨renewed, held⟩ := renewed_spec ok (k := m - (bufferLen - used r)) wrote count positive
    (by omega) (by omega)
  have moved : writeMove r (a.callFrom (a.data.length - m)) (bufferLen - used r) m =
      some (r.renewed buffer (m - (bufferLen - used r)) m,
        { a.callFrom a.data.length with
          moved := slice a.data ((a.data.length - m : Nat) : Int) m }) := by
    have ends := wrap_eq (i := r.endAt) (n := m) (by omega) r.length
    have starts := wrap_eq (i := r.cur) (n := m - (bufferLen - used r)) (by omega) r.length
    have already : i32 ((a.data.length - m : Nat) + (m : Int)) = a.data.length := by
      rw [i32_eq (by omega) (by omega)]
      omega
    rw [writeMove, copied]
    simp only [Option.bind_eq_bind, Option.bind_some, Args.callFrom, ends, already, Ring.renewed,
      List.nil_append]
    by_cases greater : (bufferLen : Int) - used r < m
    · have gap : (m : Int) - (bufferLen - used r) = (m - (bufferLen - used r) : Nat) := by omega
      rw [if_pos greater, gap, starts]
    · have none : m - (bufferLen - used r) = 0 := by omega
      rw [if_neg greater, none, Nat.add_zero, Nat.mod_eq_of_lt cur]
  have unfolded := replace_unfolded now ok opened replace some' small size
  rw [moved, Option.bind_some] at unfolded
  obtain ⟨cond, tail⟩ := writeTail_replaces now (bufferLen - used r) m
    (r.renewed buffer (m - (bufferLen - used r)) m)
    (c := { a.callFrom a.data.length with
      moved := slice a.data ((a.data.length - m : Nat) : Int) m }) replace
  rw [tail] at unfolded
  refine ⟨_, _, unfolded, rfl, ?_, ?_⟩
  · exact ⟨renewed.length, renewed.positive, renewed.small, renewed.buffer, renewed.cur,
      renewed.endAt⟩
  · have whole := length_content ok
    rw [lastBytes_append _ _ (by omega), size, whole, ← held]
    rfl

/-- A write that would go beyond the storage, or whose length is no `int`. -/
theorem writeSection_overruns (now : TimeVal) (ok : r.Ok bufferLen) (opened : r.isDestroy = false)
    (replace : a.flags.replaceOld = true) (some' : 0 < a.data.length)
    (small : a.data.length < 2 ^ 31) (beyond : Overruns bufferLen r a.data.length) :
    writeSection now r (a.callFrom 0) = none := by
  obtain ⟨order, outside⟩ := beyond
  have stray : writeCopy r (a.callFrom (a.data.length - min a.data.length bufferLen))
      (min a.data.length bufferLen : Nat) = none := by
    rw [writeCopy, if_neg (by omega), memcpy, if_neg]
    intro bounds
    have size := ok.buffer
    omega
  rw [replace_unfolded now ok opened replace some' small rfl, writeMove, stray]
  rfl

theorem i32_lt (x : Int) : i32 x < 2 ^ 31 := by
  simp only [i32]
  omega

/-- What a turn of ring_write returns is an `int`. -/
theorem writeSection_int (now : TimeVal) (opened : r.isDestroy = false) (start : c.already < 2 ^ 31)
    (run : writeSection now r c = some (r', c')) {v : Int} (done : c'.pc = .done v) :
    v < 2 ^ 31 := by
  have tail : ∀ (can need : Int) (p : Ring B × Call B), p.2.already < 2 ^ 31 →
      some (writeTail now can need p.1 p.2) = some (r', c') → v < 2 ^ 31 := by
    intro can need p bound ended
    rcases writeTail_ret now can need p.1 p.2 with returned | waits
    · rw [Option.some.inj ended] at returned
      rw [show c' = _ from returned] at done
      cases done
      exact bound
    · rw [Option.some.inj ended] at waits
      rw [show c'.pc = _ from waits] at done
      contradiction
  have turn : ∀ (c₁ : Call B) (can really need : Int), c₁.already < 2 ^ 31 →
      (if 0 < really then
        (writeMove r c₁ can really).bind fun p => some (writeTail now can need p.1 p.2)
      else (some (r, c₁)).bind fun p => some (writeTail now can need p.1 p.2)) = some (r', c') →
        v < 2 ^ 31 := by
    intro c₁ can really need bound ran
    split at ran
    · obtain ⟨p, moved, ended⟩ := Option.bind_eq_some_iff.mp ran
      simp only [writeMove, Option.bind_eq_bind, Option.bind_eq_some_iff] at moved
      obtain ⟨buffer, _, same⟩ := moved
      apply tail _ _ p _ ended
      rw [← Option.some.inj same]
      exact i32_lt _
    · exact tail _ _ (r, c₁) bound ran
  -- the bytes that are left out, and those that are copied, are counted in `int`s
  simp only [writeSection, opened, Bool.false_eq_true, if_false, Option.bind_eq_bind] at run
  split at run
  · exact turn _ _ _ _ (i32_lt _) run
  · exact turn _ _ _ _ start run

end call

/-- ring_write with RING_REPLACE_OLD keeps the newest bytes, unless its copy goes beyond the
storage or its length is none that it can return. -/
theorem write_replaces_iff {a : Args B} (ok : r.Ok bufferLen) (opened : r.isDestroy = false)
    (write : a.op = .write) (replace : a.flags.replaceOld = true) (some' : 0 < a.data.length)
    (now : TimeVal) :
    (∃ r' c', firstTurn now r a = some (r', c') ∧ Replaced bufferLen r a r' c') ↔
      a.data.length < 2 ^ 31 ∧ ¬ (a.flags.msgmode = true ∧ bufferLen < a.data.length) ∧
        ¬ Overruns bufferLen r a.data.length := by
  have entered := enter_write ok write some'
  by_cases refused : a.flags.msgmode = true ∧ bufferLen < a.data.length
  · rw [if_pos refused] at entered
    have turn : firstTurn now r a = some (r, (a.callFrom 0).ret 0) := by
      rw [firstTurn, entered]
      rfl
    constructor
    · rintro ⟨r', c', ran, replaced⟩
      rw [turn] at ran
      obtain ⟨rfl, rfl⟩ := Prod.mk.inj (Option.some.inj ran)
      have returned : (0 : Int) = a.data.length := Pc.done.inj replaced.returned
      omega
    · rintro ⟨_, whole, _⟩
      exact absurd refused whole
  · rw [if_neg refused] at entered
    have turn : firstTurn now r a = writeSection now r (a.callFrom 0) := by
      rw [firstTurn, entered]
      simp only [runSection, Args.callFrom, write]
    rw [turn]
    constructor
    · rintro ⟨r', c', ran, replaced⟩
      have small : a.data.length < 2 ^ 31 := by
        have start : (a.callFrom 0).already < 2 ^ 31 := by simp [Args.callFrom]
        have int := writeSection_int now opened start ran replaced.returned
        exact_mod_cast int
      refine ⟨small, refused, ?_⟩
      intro beyond
      rw [writeSection_overruns now ok opened replace some' small beyond] at ran
      contradiction
    · rintro ⟨small, _, inside⟩
      exact writeSection_replaces now ok opened replace some' small inside

section example_runs

/-- Three bytes in three places are read, and three more written: they go around the end of the
storage. -/
def aroundSchedule : List (Args Nat ⊕ Nat × Answer) :=
  [starts .write noFlags [1, 2, 3], turn 0, starts .read noFlags [0, 0, 0], turn 1,
    starts .write noFlags [4, 5, 6], turn 2]

def replaceArgs (data : List Nat) : Args Nat :=
  ⟨.write, { noFlags with replaceOld := true }, data, 0, ⟨0, 0⟩, ⟨0, 0⟩⟩

def replaceRing : Ring Nat := ⟨false, 1, 3, 4, noFlags, ⟨0, 0⟩, ⟨0, 0⟩, [0, 2, 3, 0]⟩

/-- Two of four bytes go to the end of the storage and to its start. -/
theorem write_replaces_last : ∃ r' c',
    firstTurn ⟨0, 0⟩ replaceRing (replaceArgs [4, 5, 6, 7]) = some (r', c') ∧
      Replaced 3 replaceRing (replaceArgs [4, 5, 6, 7]) r' c' := by
  have ok : replaceRing.Ok 3 := ⟨rfl, by decide, by decide, rfl, by decide, by decide⟩
  apply (write_replaces_iff ok rfl rfl rfl (by decide) _).mpr
  decide

/-- With the bytes around the end of the storage, three more bytes are written beyond it. -/
theorem write_replace_overruns : ∃ s : Threads.Config (Shared Nat) (Call Nat),
    Runs (initial 3 noFlags [0, 0, 0, 0]) s ∧ s.shared.ring.isDestroy = false ∧
      firstTurn ⟨0, 0⟩ s.shared.ring (replaceArgs [7, 8, 9]) = none := by
  have ran : ((calls.exec Plain aroundSchedule (initial 3 noFlags [0, 0, 0, 0])).map fun s =>
      (s.shared.ring.isDestroy,
        (firstTurn ⟨0, 0⟩ s.shared.ring (replaceArgs [7, 8, 9])).isNone)) =
          some (false, true) := by with_unfolding_all rfl
  obtain ⟨s, executed, facts⟩ := Option.map_eq_some_iff.mp ran
  obtain ⟨opened, stray⟩ := Prod.mk.inj facts
  exact ⟨s, Threads.Program.exec_reaches executed, opened, Option.isNone_iff_eq_none.mp stray⟩

end example_runs
end MoonInWater.RingBuffer
