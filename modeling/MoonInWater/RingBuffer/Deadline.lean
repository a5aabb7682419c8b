import MoonInWater.RingBuffer.Model

/-! The deadline of ring_read and ring_write with RING_TIMEOUT, over all turns of a call. -/
namespace MoonInWater.RingBuffer
open CInt
variable {B : Type}

/-! ## Clock readings -/

/-- The time in microseconds. -/
def TimeVal.micros (tv : TimeVal) : Int := 1000000 * tv.tvSec + tv.tvUsec

/-- What gettimeofday may give. -/
structure TimeVal.Reading (tv : TimeVal) : Prop where
  low : 0 ≤ tv.tvUsec
  high : tv.tvUsec < 1000000

theorem micros_tvAddup (dst src : TimeVal) :
    (tvAddup dst src).micros = dst.micros + src.micros := by
  simp only [tvAddup]
  split
  · simp only [TimeVal.micros]
    omega
  · simp only [TimeVal.micros]
    omega

theorem tvAddup_high (dst src : TimeVal) : (tvAddup dst src).tvUsec < 1000000 := by
  simp only [tvAddup]
  split
  · exact Int.emod_lt_of_pos _ (by decide)
  next small => exact Int.not_le.mp small

/-- A time that compares as not before another is not before it. -/
theorem micros_le {tv now : TimeVal} (high : tv.tvUsec < 1000000) (reading : now.Reading)
    (late : 0 ≤ tvCompare now tv) : tv.micros ≤ now.micros := by
  have low := reading.low
  simp only [tvCompare] at late
  simp only [TimeVal.micros]
  split at late
  · omega
  split at late
  · omega
  split at late
  · omega
  split at late
  · omega
  · omega

theorem tvCompare_total (tv now : TimeVal) : 0 ≤ tvCompare tv now ∨ 0 ≤ tvCompare now tv := by
  rcases Int.lt_trichotomy tv.tvSec now.tvSec with less | same | greater
  · exact .inr (by simp [tvCompare, less])
  · rcases Int.lt_trichotomy tv.tvUsec now.tvUsec with less' | same' | greater'
    · exact .inr (by simp [tvCompare, same, less'])
    · exact .inl (by simp [tvCompare, same, same'])
    · exact .inl (by simp [tvCompare, same, greater'])
  · exact .inl (by simp [tvCompare, greater])

/-! ## What is asked for -/

def Args.deadline (a : Args B) : Int := a.now.micros + a.timeout.micros

/-- A call that returns 0 bytes at a turn does so in time: the clock reading of the turn is not
before the deadline, or the wait whose end is not before it is over. -/
def InTime (a : Args B) (c : Call B) (answer : Answer) : Prop :=
  a.deadline ≤ answer.now.micros ∨
    c.pc = .waiting ∧ answer.wake = .timedOut ∧ a.deadline ≤ c.tv.micros

/-- What the turns of a call find, one after the other, and what it is when they begin. -/
def ZeroInTime (a : Args B) : Call B → List (Ring B × Answer) → Prop
  | _, [] => True
  | c, (r, answer) :: turns => ∀ r' c', resume answer r c = some (r', c') →
    (c'.pc = .done 0 → InTime a c answer) ∧ ZeroInTime a c' turns

/-- The call returns 0 bytes only in time. -/
def WaitsForDeadline (r : Ring B) (a : Args B) (turns : List (Ring B × Answer)) : Prop :=
  ((enter r a).pc = .done 0 → a.deadline ≤ a.now.micros) ∧ ZeroInTime a (enter r a) turns

/-- A read or write with RING_TIMEOUT and without RING_NOWAIT. The rings that its turns find
are what other calls may make of the one it began with, and the clock does not go back. -/
structure Timed (r : Ring B) (a : Args B) (turns : List (Ring B × Answer)) : Prop where
  op : a.op ≠ .close
  timeout : a.flags.timeout = true
  waits : a.flags.nowait = false
  some : 0 < a.data.length
  unsigned : a.data.length < 2 ^ 32
  message : a.flags.msgmode = true → (a.data.length : Int) ≤ r.length - 1
  positive : 0 < r.length
  small : r.length ≤ 2 ^ 31
  rings : ∀ turn ∈ turns, turn.1.length = r.length ∧ turn.1.flags = r.flags
  readings : ∀ turn ∈ turns, turn.2.now.Reading
  clock : (turns.map fun turn => turn.2.now.micros).Pairwise (· ≤ ·)

/-! ## One turn -/

/-- The end of a turn of a read that waits for its bytes. -/
theorem readTail_cases (now : TimeVal) (can need : Int) (r : Ring B) {c : Call B}
    (waits : c.flags.nowait = false) :
    (readTail now can need r c).2 = c.ret c.already ∧
        (need ≤ can ∨ 0 < c.already ∨
          r.isDestroy = false ∧ (r.flags.nowait = true ∨ 0 ≤ tvCompare now c.tv)) ∨
      (readTail now can need r c).2 = c.ret (-1) ∨
      (readTail now can need r c).2 = { c with pc := .waiting } ∧ can < need ∧
        r.flags.nowait = false := by
  have ended : (readOver r c).2 = c.ret c.already := rfl
  rw [readTail]
  by_cases rest : need < can
  · rw [if_pos rest]
    exact .inl ⟨rfl, .inl rest.le⟩
  rw [if_neg rest]
  by_cases same : can = need
  · rw [if_pos same]
    exact .inl ⟨ended, .inl same.ge⟩
  rw [if_neg same]
  by_cases closed : r.isDestroy = true
  · rw [if_pos closed]
    by_cases some' : 0 < c.already
    · rw [if_pos some']
      exact .inl ⟨rfl, .inr (.inl some')⟩
    · rw [if_neg some']
      exact .inr (.inl rfl)
  rw [if_neg closed]
  have opened : r.isDestroy = false := Bool.eq_false_iff.mpr closed
  split
  next gives =>
    refine .inl ⟨ended, ?_⟩
    rcases gives with ⟨_, some'⟩ | own | ring
    · exact .inr (.inl some')
    · exact absurd (waits.symm.trans own) Bool.false_ne_true
    · exact .inr (.inr ⟨opened, .inl ring⟩)
  next stays =>
    split
    next late => exact .inl ⟨ended, .inr (.inr ⟨opened, .inr late.2⟩)⟩
    next early =>
      refine .inr (.inr ⟨rfl, by omega, ?_⟩)
      exact Bool.eq_false_iff.mpr fun ring => stays (.inr (.inr ring))

/-- The end of a turn of a write that waits for its places. -/
theorem writeTail_cases (now : TimeVal) (can need : Int) (r : Ring B) {c : Call B}
    (waits : c.flags.nowait = false) (timeout : c.flags.timeout = true)
    (keeps : c.flags.replaceOld = false) :
    (writeTail now can need r c).2 = c.ret c.already ∧
        (need ≤ can ∨ 0 < c.already ∨ r.flags.nowait = true ∨ 0 ≤ tvCompare c.tv now) ∨
      (writeTail now can need r c).2 = { c with pc := .waiting } ∧ can < need ∧
        r.flags.nowait = false ∧ tvCompare c.tv now < 0 := by
  rw [writeTail]
  by_cases rest : need < can
  · rw [if_pos rest]
    exact .inl ⟨rfl, .inl rest.le⟩
  rw [if_neg rest]
  by_cases same : can = need
  · rw [if_pos same]
    exact .inl ⟨rfl, .inl same.ge⟩
  rw [if_neg same]
  split
  next gives =>
    refine .inl ⟨rfl, ?_⟩
    rcases gives with replace | (own | ring) | ⟨_, some'⟩
    · exact absurd (keeps.symm.trans replace) Bool.false_ne_true
    · exact absurd (waits.symm.trans own) Bool.false_ne_true
    · exact .inr (.inr (.inl ring))
    · exact .inr (.inl some')
  next stays =>
    split
    next late => exact .inl ⟨rfl, .inr (.inr (.inr late.2))⟩
    next early =>
      have ring : r.flags.nowait = false :=
        Bool.eq_false_iff.mpr fun ring => stays (.inr (.inl (.inr ring)))
      refine .inr ⟨rfl, by omega, ring, ?_⟩
      by_contra late
      exact early ⟨timeout, by omega⟩

/-- Nothing can be moved where `can` of `need` bytes could. -/
def Nothing (flags : Flags) (can need : Int) : Prop :=
  can ≤ 0 ∨ flags.msgmode = true ∧ can < need

instance (flags : Flags) (can need : Int) : Decidable (Nothing flags can need) :=
  inferInstanceAs (Decidable (_ ∨ _))

/-- How many bytes a turn moves. -/
theorem really_cases (flags : Flags) (can need : Int) (some' : 0 < need) :
    let really := msgWhole flags (if can < need then can else need) need
    (really ≤ 0 ∧ Nothing flags can need ∧ can < need) ∨
      (0 < really ∧ really ≤ need ∧ really ≤ can ∧ ¬Nothing flags can need) := by
  intro really
  by_cases short : can < need
  · have part : really = if flags.msgmode = true then 0 else can := by
      simp only [really, msgWhole, short, if_true, and_true]
    by_cases message : flags.msgmode = true
    · rw [if_pos message] at part
      exact .inl ⟨part.le, .inr ⟨message, short⟩, short⟩
    rw [if_neg message] at part
    by_cases none : can ≤ 0
    · exact .inl ⟨by omega, .inl none, short⟩
    · refine .inr ⟨by omega, by omega, part.le, ?_⟩
      rintro (empty | ⟨whole, _⟩)
      · exact none empty
      · exact message whole
  · have all : really = need := by
      simp only [really, msgWhole, if_neg short, lt_irrefl, and_false, if_false]
    refine .inr ⟨by omega, by omega, by omega, ?_⟩
    rintro (empty | ⟨_, less⟩)
    · omega
    · exact short less

/-- A call that still needs bytes. -/
structure Pending (a : Args B) (c : Call B) : Prop where
  op : c.op = a.op
  flags : c.flags = a.flags
  tv : c.tv = tvAddup a.timeout a.now
  already : 0 ≤ c.already
  need : c.already < c.need
  small : c.need < 2 ^ 31
  keeps : c.op = .write → c.flags.replaceOld = false

theorem Pending.asked {a : Args B} {c : Call B} (pending : Pending a c) :
    i32 (c.need - c.already) = c.need - c.already := by
  have low := pending.already
  have less := pending.need
  have small := pending.small
  exact i32_eq (by omega) (by omega)

/-- How a turn of a pending call ends, that could move `can` bytes. -/
def Outcome (a : Args B) (c : Call B) (can : Int) (gives stays : Prop) (c' : Call B) : Prop :=
  (∃ v, c'.pc = .done v ∧ v ≠ 0) ∨
    (c'.pc = .done 0 ∧ c.already = 0 ∧ Nothing c.flags can (c.need - c.already) ∧ gives) ∨
    c'.pc = .waiting ∧ Pending a c' ∧ stays

section turns
variable {a : Args B} {r r' : Ring B} {c c' : Call B}

/-- The call with `n` more bytes. -/
def Call.moves (c : Call B) (data moved : List B) (n : Int) : Call B :=
  { c with data := data, already := c.already + n, moved := moved }

theorem moves_zero (c : Call B) : c.moves c.data c.moved 0 = c := by
  rw [Call.moves, Int.add_zero]

/-- The `n` bytes that a turn moves of those it could. -/
def Moved (flags : Flags) (can need n : Int) : Prop :=
  (n = 0 ∧ Nothing flags can need ∧ can < need) ∨ (0 < n ∧ n ≤ need ∧ n ≤ can)

theorem Pending.waiting {data moved : List B} {n : Int} (pending : Pending a c) (low : 0 ≤ n)
    (less : n < c.need - c.already) :
    Pending a { c.moves data moved n with pc := .waiting } where
  op := pending.op
  flags := pending.flags
  tv := pending.tv
  already := by
    have := pending.already
    show 0 ≤ c.already + n
    omega
  need := by
    show c.already + n < c.need
    omega
  small := pending.small
  keeps := pending.keeps

section
variable {can n : Int} (data moved : List B) (now : TimeVal) (r : Ring B)

theorem returned_outcome {gives stays : Prop} (pending : Pending a c)
    (count : Moved c.flags can (c.need - c.already) n)
    (why : c.need - c.already ≤ can ∨ 0 < c.already + n ∨ gives) :
    Outcome a c can gives stays ((c.moves data moved n).ret (c.already + n)) := by
  have positive := pending.already
  by_cases zero : c.already + n = 0
  · refine .inr (.inl ⟨by rw [Call.ret, zero], ?_⟩)
    rcases count with ⟨rfl, nothing, short⟩ | ⟨some', _, _⟩
    · refine ⟨by omega, nothing, ?_⟩
      rcases why with le | some' | gives
      · omega
      · omega
      · exact gives
    · omega
  · exact .inl ⟨_, rfl, zero⟩

theorem waiting_outcome {gives stays : Prop} (pending : Pending a c)
    (count : Moved c.flags can (c.need - c.already) n) (short : can < c.need - c.already)
    (why : stays) : Outcome a c can gives stays { c.moves data moved n with pc := .waiting } := by
  refine .inr (.inr ⟨rfl, ?_, why⟩)
  have less := pending.need
  rcases count with ⟨rfl, _, _⟩ | ⟨some', _, within⟩
  · exact pending.waiting le_rfl (by omega)
  · exact pending.waiting (by omega) (by omega)

theorem readTail_outcome (pending : Pending a c) (waits : a.flags.nowait = false)
    (count : Moved c.flags can (c.need - c.already) n) :
    Outcome a c can (r.isDestroy = false ∧ (r.flags.nowait = true ∨ 0 ≤ tvCompare now c.tv))
      (r.flags.nowait = false)
      (readTail now can (c.need - c.already) r (c.moves data moved n)).2 := by
  rw [← pending.flags] at waits
  rcases readTail_cases now can (c.need - c.already) r (c := c.moves data moved n) waits with
    ⟨tail, why⟩ | tail | ⟨tail, short, stays⟩
  · rw [tail]
    exact returned_outcome data moved pending count why
  · rw [tail]
    exact .inl ⟨-1, rfl, by decide⟩
  · rw [tail]
    exact waiting_outcome data moved pending count short stays

theorem writeTail_outcome (pending : Pending a c) (waits : a.flags.nowait = false)
    (timeout : a.flags.timeout = true) (keeps : c.flags.replaceOld = false)
    (count : Moved c.flags can (c.need - c.already) n) :
    Outcome a c can (r.flags.nowait = true ∨ 0 ≤ tvCompare c.tv now)
      (r.flags.nowait = false ∧ tvCompare c.tv now < 0)
      (writeTail now can (c.need - c.already) r (c.moves data moved n)).2 := by
  rw [← pending.flags] at waits timeout
  rcases writeTail_cases now can (c.need - c.already) r (c := c.moves data moved n) waits
    timeout keeps with ⟨tail, why⟩ | ⟨tail, short, stays⟩
  · rw [tail]
    exact returned_outcome data moved pending count why
  · rw [tail]
    exact waiting_outcome data moved pending count short stays

end

/-- What no section of a call writes. -/
def Ring.Same (r r' : Ring B) : Prop := r'.isDestroy = r.isDestroy ∧ r'.flags = r.flags

theorem readMove_moves {n : Int} (moved : readMove r c n = some (r', c')) :
    r.Same r' ∧ ∃ data bytes, c' = c.moves data bytes n := by
  obtain ⟨data, copied, rest⟩ := Option.bind_eq_some_iff.mp moved
  simp only at rest
  split at rest
  · obtain ⟨rfl, rfl⟩ := Prod.mk.inj (Option.some.inj rest)
    exact ⟨⟨rfl, rfl⟩, _, _, rfl⟩
  · obtain ⟨rfl, rfl⟩ := Prod.mk.inj (Option.some.inj rest)
    exact ⟨⟨rfl, rfl⟩, _, _, rfl⟩

theorem writeMove_moves {can n : Int} (inside : i32 (c.already + n) = c.already + n)
    (moved : writeMove r c can n = some (r', c')) :
    r.Same r' ∧ ∃ data bytes, c' = c.moves data bytes n := by
  obtain ⟨buffer, copied, rest⟩ := Option.bind_eq_some_iff.mp moved
  obtain ⟨rfl, rfl⟩ := Prod.mk.inj (Option.some.inj rest)
  exact ⟨⟨rfl, rfl⟩, c.data, c.moved ++ slice c.data c.already n, by rw [Call.moves, inside]⟩

theorem readSection_outcome (now : TimeVal) (pending : Pending a c)
    (waits : a.flags.nowait = false) (run : readSection now r c = some (r', c')) :
    Outcome a c (canRead r c)
      (r.isDestroy = false ∧ (r.flags.nowait = true ∨ 0 ≤ tvCompare now c.tv))
      (r.flags.nowait = false) c' := by
  have less := pending.need
  simp only [readSection, pending.asked, Option.bind_eq_bind] at run
  generalize canRead r c = can at run ⊢
  rcases really_cases c.flags can (c.need - c.already) (by omega) with
    ⟨none, nothing, short⟩ | ⟨moves, fits, within, _⟩
  · rw [if_neg (by omega), Option.bind_some] at run
    have outcome := readTail_outcome c.data c.moved now r pending waits
      (.inl ⟨rfl, nothing, short⟩)
    rw [moves_zero, Option.some.inj run] at outcome
    exact outcome
  · rw [if_pos moves] at run
    obtain ⟨⟨r₁, c₁⟩, moved, ended⟩ := Option.bind_eq_some_iff.mp run
    obtain ⟨⟨closed, flags⟩, data, bytes, rfl⟩ := readMove_moves moved
    have outcome := readTail_outcome data bytes now r₁ pending waits
      (.inr ⟨moves, fits, within⟩)
    rw [Option.some.inj ended, closed, flags] at outcome
    exact outcome

/-- The turn of a write that does not replace old bytes. -/
theorem writeSection_opened (now : TimeVal) (pending : Pending a c) (op : c.op = .write)
    (opened : r.isDestroy = false) :
    writeSection now r c =
      (if 0 < msgWhole c.flags (if canWrite r < c.need - c.already then canWrite r
          else c.need - c.already) (c.need - c.already) then
        writeMove r c (canWrite r) (msgWhole c.flags (if canWrite r < c.need - c.already then
          canWrite r else c.need - c.already) (c.need - c.already))
      else some (r, c)).bind fun p =>
        some (writeTail now (canWrite r) (c.need - c.already) p.1 p.2) := by
  have keeps := pending.keeps op
  simp only [writeSection, opened, Bool.false_eq_true, if_false, pending.asked, keeps, false_and,
    Option.bind_eq_bind]
  generalize msgWhole c.flags (if canWrite r < c.need - c.already then canWrite r
    else c.need - c.already) (c.need - c.already) = really
  split <;> rfl

theorem writeSection_outcome (now : TimeVal) (pending : Pending a c) (op : c.op = .write)
    (waits : a.flags.nowait = false) (timeout : a.flags.timeout = true)
    (run : writeSection now r c = some (r', c')) :
    Outcome a c (canWrite r)
      (r.isDestroy = false ∧ (r.flags.nowait = true ∨ 0 ≤ tvCompare c.tv now))
      (r.flags.nowait = false ∧ tvCompare c.tv now < 0) c' := by
  have keeps := pending.keeps op
  have positive := pending.already
  have less := pending.need
  have small := pending.small
  by_cases closed : r.isDestroy = true
  · rw [writeSection, if_pos closed] at run
    obtain ⟨rfl, rfl⟩ := Prod.mk.inj (Option.some.inj run)
    refine .inl ⟨_, rfl, ?_⟩
    split <;> omega
  have opened : r.isDestroy = false := Bool.eq_false_iff.mpr closed
  rw [writeSection_opened now pending op opened] at run
  generalize canWrite r = can at run ⊢
  have mono : ∀ {p q : Prop}, Outcome a c can p q c' →
      Outcome a c can (r.isDestroy = false ∧ p) q c' := by
    intro p q outcome
    exact outcome.imp_right fun rest => rest.imp_left fun ⟨zero, already, nothing, gives⟩ =>
      ⟨zero, already, nothing, opened, gives⟩
  rcases really_cases c.flags can (c.need - c.already) (by omega) with
    ⟨none, nothing, short⟩ | ⟨moves, fits, within, _⟩
  · rw [if_neg (by omega), Option.bind_some] at run
    have outcome := writeTail_outcome c.data c.moved now r pending waits
      timeout keeps (.inl ⟨rfl, nothing, short⟩)
    rw [moves_zero, Option.some.inj run] at outcome
    exact mono outcome
  · rw [if_pos moves] at run
    obtain ⟨⟨r₁, c₁⟩, moved, ended⟩ := Option.bind_eq_some_iff.mp run
    obtain ⟨⟨_, flags⟩, data, bytes, rfl⟩ :=
      writeMove_moves (i32_eq (by omega) (by omega)) moved
    have outcome := writeTail_outcome data bytes now r₁ pending waits timeout
      keeps (.inr ⟨moves, fits, within⟩)
    rw [Option.some.inj ended, flags] at outcome
    exact mono outcome

end turns

/-! ## The first turn -/

/-- What a read that peeks is refused for: a skip outside of the ring, or a message that cannot
be behind it. -/
def Refuses (r : Ring B) (a : Args B) : Prop :=
  a.op = .read ∧ a.flags.peek = true ∧
    (a.peekSkip < 0 ∨ (r.length : Int) - 1 ≤ a.peekSkip ∨
      a.flags.msgmode = true ∧ (r.length : Int) - 1 - a.peekSkip < a.data.length)

/-- What lets the first turn return no bytes, whatever the clock says: a length that is none of
an `int`, a write that has no place, or a read without bytes of a ring that never waits. -/
def GivesUp (r : Ring B) (a : Args B) : Prop :=
  match a.op with
  | .read => (2 ^ 31 ≤ a.data.length ∧ a.flags.peek = false) ∨
      r.isDestroy = false ∧ r.flags.nowait = true ∧
        Nothing a.flags (canRead r (enter r a)) (enter r a).need
  | .write => r.isDestroy = false ∧ a.flags.replaceOld = false ∧
      (2 ^ 31 ≤ a.data.length ∨ Nothing a.flags (canWrite r) a.data.length)
  | .close => False

section enter
variable {a : Args B} {r : Ring B} {turns : List (Ring B × Answer)}

theorem deadline_eq (a : Args B) : (tvAddup a.timeout a.now).micros = a.deadline := by
  rw [micros_tvAddup, Args.deadline, Int.add_comm]

theorem unsigned_eq (timed : Timed r a turns) : u32 (i32 a.data.length) = a.data.length := by
  have := timed.unsigned
  simp only [u32, i32]
  omega

theorem enter_refused (timed : Timed r a turns) (refuses : Refuses r a) :
    (enter r a).pc = .done 0 := by
  obtain ⟨read, peek, why⟩ := refuses
  have some' := timed.some
  simp only [enter, read, if_neg (Nat.ne_of_gt some'), peek, if_true, unsigned_eq timed]
  by_cases outside : a.peekSkip < 0 ∨ (r.length : Int) - 1 ≤ a.peekSkip
  · rw [if_pos outside]
    rfl
  · have message : a.flags.msgmode = true ∧ (r.length : Int) - 1 - a.peekSkip < a.data.length := by
      tauto
    rw [if_neg outside, if_pos message]
    rfl

/-- The call as it comes to its first turn. -/
structure Entered (a : Args B) (c : Call B) : Prop where
  op : c.op = a.op
  flags : c.flags = a.flags
  tv : c.tv = tvAddup a.timeout a.now
  already : c.already = 0
  pc : c.pc = .entry
  peeks : a.op = .read → a.flags.peek = true → 0 < c.need ∧ c.need < 2 ^ 31
  asks : (a.op = .read → a.flags.peek = false) → c.need = i32 a.data.length
  skips : a.op = .read → a.flags.peek = false → c.peekSkip = 0

theorem enter_accepted (timed : Timed r a turns) (accepts : ¬Refuses r a) :
    Entered a (enter r a) := by
  have some' := timed.some
  have unsigned := timed.unsigned
  have small := timed.small
  have timeout := timed.timeout
  cases op : a.op with
  | close => exact absurd op timed.op
  | write =>
    have fits : ¬(a.flags.msgmode = true ∧ (r.length : Int) - 1 < a.data.length) := by
      rintro ⟨message, long⟩
      have := timed.message message
      omega
    simp only [enter, op, if_neg (Nat.ne_of_gt some'), if_neg fits, timeout, if_true]
    constructor <;> simp [op]
  | read =>
    cases peek : a.flags.peek with
    | false =>
      simp only [enter, op, if_neg (Nat.ne_of_gt some'), peek, Bool.false_eq_true, if_false,
        timeout, if_true]
      constructor <;> simp [op, peek]
    | true =>
      have inside : ¬(a.peekSkip < 0 ∨ (r.length : Int) - 1 ≤ a.peekSkip) := by
        intro outside
        exact accepts ⟨op, peek, by tauto⟩
      have whole : ¬(a.flags.msgmode = true ∧
          (r.length : Int) - 1 - a.peekSkip < a.data.length) := by
        intro message
        exact accepts ⟨op, peek, by tauto⟩
      simp only [enter, op, if_neg (Nat.ne_of_gt some'), peek, if_true, if_neg inside,
        unsigned_eq timed, if_neg whole, timeout]
      have room : 0 < (if (r.length : Int) - 1 - a.peekSkip < a.data.length then
          (r.length : Int) - 1 - a.peekSkip else i32 a.data.length) ∧
          (if (r.length : Int) - 1 - a.peekSkip < a.data.length then
          (r.length : Int) - 1 - a.peekSkip else i32 a.data.length) < 2 ^ 31 := by
        split
        · omega
        · rw [i32_eq (by omega) (by omega)]
          omega
      exact ⟨op.symm, rfl, rfl, rfl, rfl, fun _ _ => room,
        fun bytes => absurd (peek.symm.trans (bytes op)) (by decide),
        fun _ bytes => absurd (peek.symm.trans bytes) (by decide)⟩

/-- Only the length of the ring counts in front of the first turn. -/
theorem enter_congr {r₁ : Ring B} (same : r₁.length = r.length) : enter r₁ a = enter r a := by
  simp only [enter, same]

/-- A call that the first turn finds pending. -/
theorem Entered.pending {c : Call B} (entered : Entered a c) (low : 0 < c.need)
    (small : c.need < 2 ^ 31) (keeps : a.op = .write → a.flags.replaceOld = false) :
    Pending a c where
  op := entered.op
  flags := entered.flags
  tv := entered.tv
  already := entered.already.ge
  need := entered.already ▸ low
  small := small
  keeps op := by
    rw [entered.flags]
    exact keeps (entered.op.symm.trans op)

end enter

section first
variable {a : Args B} {r r' : Ring B} {c c' : Call B}

/-- A length that is none of an `int` makes a turn return at once. -/
theorem readSection_long (now : TimeVal) (entered : Entered a c) (read : a.op = .read)
    (peek : a.flags.peek = false) (long : 2 ^ 31 ≤ a.data.length)
    (unsigned : a.data.length < 2 ^ 32) (positive : 0 < r.length) (small : r.length ≤ 2 ^ 31) :
    ∃ r', readSection now r c = some (r', c.ret 0) := by
  have asks : c.need = i32 a.data.length := entered.asks fun _ => peek
  have skips := entered.skips read peek
  have need : i32 (c.need - c.already) < 0 := by
    rw [asks, entered.already]
    simp only [i32]
    omega
  have can : 0 ≤ canRead r c := by
    have low := Int.emod_nonneg (u32 (i32 ((r.length : Int) - r.cur) + r.endAt))
      (show (r.length : Int) ≠ 0 by omega)
    have high := Int.emod_lt_of_pos (u32 (i32 ((r.length : Int) - r.cur) + r.endAt))
      (show (0 : Int) < r.length by omega)
    rw [canRead, skips, Int.sub_zero]
    rw [i32_eq (by omega) (by omega)]
    exact low
  simp only [readSection, Option.bind_eq_bind]
  generalize canRead r c = can' at can ⊢
  generalize i32 (c.need - c.already) = need' at need ⊢
  have idle : ¬0 < msgWhole c.flags (if can' < need' then can' else need') need' := by
    rw [if_neg (by omega), msgWhole, if_neg (by omega)]
    omega
  have tail : readTail now can' need' r c =
      ({ r with conReader := r.conReader.signal }, c.ret c.already) := if_pos (by omega)
  rw [if_neg idle, Option.bind_some, tail, entered.already]
  exact ⟨_, rfl⟩

theorem canWrite_nonneg (positive : 0 < r.length) (small : r.length ≤ 2 ^ 31) :
    0 ≤ canWrite r := by
  have low := Int.emod_nonneg (u32 (i32 ((r.length : Int) - r.endAt) + r.cur - 1))
    (show (r.length : Int) ≠ 0 by omega)
  have high := Int.emod_lt_of_pos (u32 (i32 ((r.length : Int) - r.endAt) + r.cur - 1))
    (show (0 : Int) < r.length by omega)
  rw [canWrite, i32_eq (by omega) (by omega)]
  exact low

theorem writeSection_long (now : TimeVal) (entered : Entered a c) (write : a.op = .write)
    (keeps : a.flags.replaceOld = false) (long : 2 ^ 31 ≤ a.data.length)
    (unsigned : a.data.length < 2 ^ 32) (positive : 0 < r.length) (small : r.length ≤ 2 ^ 31)
    (opened : r.isDestroy = false) :
    ∃ r', writeSection now r c = some (r', c.ret 0) := by
  have asks : c.need = i32 a.data.length := by
    apply entered.asks
    intro read
    exact absurd (write.symm.trans read) (by decide)
  have need : i32 (c.need - c.already) < 0 := by
    rw [asks, entered.already]
    simp only [i32]
    omega
  have can := canWrite_nonneg positive small
  rw [← entered.flags] at keeps
  simp only [writeSection, opened, Bool.false_eq_true, if_false, keeps, false_and,
    Option.bind_eq_bind]
  generalize canWrite r = can' at can ⊢
  generalize i32 (c.need - c.already) = need' at need ⊢
  have idle : ¬0 < msgWhole c.flags (if can' < need' then can' else need') need' := by
    rw [if_neg (by omega), msgWhole, if_neg (by omega)]
    omega
  have tail : writeTail now can' need' r c =
      ({ r with conWriter := r.conWriter.signal }, c.ret c.already) := if_pos (by omega)
  rw [if_neg idle, Option.bind_some, tail, entered.already]
  exact ⟨_, rfl⟩

theorem i32_wrap (x y : Int) : i32 (i32 x + y) = i32 (x + y) := by
  simp only [i32]
  omega

theorem i32_ne_zero {n : Int} (positive : 0 < n) (unsigned : n < 2 ^ 32) : i32 n ≠ 0 := by
  simp only [i32]
  omega

/-- What is counted of the last `l - 1` bytes of a longer input. -/
theorem counted_ne_zero {n l : Int} (positive : 0 < n) (unsigned : n < 2 ^ 32) (one : 0 < l)
    (small : l ≤ 2 ^ 31) :
    (if 0 < i32 (l - 1) then i32 (i32 (0 + i32 n - l + 1) + i32 (l - 1))
      else i32 (0 + i32 n - l + 1)) ≠ 0 := by
  have room : i32 (l - 1) = l - 1 := i32_eq (by omega) (by omega)
  have first : i32 (0 + i32 n - l + 1) = i32 (n - l + 1) := by
    have parts : 0 + i32 n - l + 1 = i32 n + (1 - l) := by omega
    rw [parts, i32_wrap]
    congr 1
    omega
  rw [room, first]
  by_cases some' : 0 < l - 1
  · rw [if_pos some', i32_wrap]
    have whole : n - l + 1 + (l - 1) = n := by omega
    rw [whole]
    exact i32_ne_zero positive unsigned
  · rw [if_neg some']
    have whole : n - l + 1 = n := by omega
    rw [whole]
    exact i32_ne_zero positive unsigned
theorem writeMove_already {can n : Int} (moved : writeMove r c can n = some (r', c')) :
    c'.flags = c.flags ∧ c'.already = i32 (c.already + n) := by
  obtain ⟨buffer, copied, rest⟩ := Option.bind_eq_some_iff.mp moved
  obtain ⟨rfl, rfl⟩ := Prod.mk.inj (Option.some.inj rest)
  exact ⟨rfl, rfl⟩

/-- The turn of a write that replaces old bytes ends with what it has counted. -/
theorem replaced_turn (now : TimeVal) (replaces : c.flags.replaceOld = true) {can need : Int}
    (run : (if 0 < need then
        (writeMove r c can need).bind fun p => some (writeTail now can need p.1 p.2)
      else (some (r, c)).bind fun p => some (writeTail now can need p.1 p.2)) = some (r', c')) :
    c'.pc = .done (if 0 < need then i32 (c.already + need) else c.already) := by
  have returned : ∀ (r₁ : Ring B) (c₁ : Call B), c₁.flags.replaceOld = true →
      (writeTail now can need r₁ c₁).2 = c₁.ret c₁.already := by
    intro r₁ c₁ flag
    rw [writeTail]
    split
    · rfl
    split
    · rfl
    · rw [if_pos (.inl flag)]
  by_cases moves : 0 < need
  · rw [if_pos moves] at run ⊢
    obtain ⟨⟨r₁, c₁⟩, moved, ended⟩ := Option.bind_eq_some_iff.mp run
    obtain ⟨flags, already⟩ := writeMove_already moved
    have ends := returned r₁ c₁ (flags ▸ replaces)
    rw [Option.some.inj ended, already] at ends
    rw [show c' = _ from ends]
    rfl
  · rw [if_neg moves] at run ⊢
    have ends := returned r c replaces
    rw [Option.some.inj run] at ends
    rw [show c' = _ from ends]
    rfl

/-- A write that replaces old bytes returns its length. -/
theorem writeSection_replaced (now : TimeVal) (entered : Entered a c) (write : a.op = .write)
    (replaces : a.flags.replaceOld = true) (some' : 0 < a.data.length)
    (unsigned : a.data.length < 2 ^ 32) (positive : 0 < r.length) (small : r.length ≤ 2 ^ 31)
    (run : writeSection now r c = some (r', c')) : ∃ v, c'.pc = .done v ∧ v ≠ 0 := by
  have asks : c.need = i32 a.data.length := by
    apply entered.asks
    intro read
    exact absurd (write.symm.trans read) (by decide)
  have flag : c.flags.replaceOld = true := by rw [entered.flags, replaces]
  by_cases closed : r.isDestroy = true
  · rw [writeSection, if_pos closed, entered.already, if_neg (by omega)] at run
    obtain ⟨rfl, rfl⟩ := Prod.mk.inj (Option.some.inj run)
    exact ⟨-1, rfl, by decide⟩
  have opened : r.isDestroy = false := Bool.eq_false_iff.mpr closed
  have need : i32 (i32 a.data.length - 0) = i32 a.data.length := by
    simp only [i32]
    omega
  have count : u32 (i32 a.data.length) = a.data.length := by
    simp only [u32, i32]
    omega
  have whole : ∀ n : Int, msgWhole c.flags n n = n := by
    intro n
    rw [msgWhole, if_neg (by omega)]
  simp only [writeSection, opened, Bool.false_eq_true, if_false, flag, true_and,
    asks, entered.already, need, count, Option.bind_eq_bind] at run
  by_cases skips : (r.length : Int) - 1 < a.data.length
  · simp only [if_pos skips, flag, if_true, whole] at run
    have ends := replaced_turn (c := { c with
      need := i32 a.data.length
      already := i32 (0 + i32 a.data.length - r.length + 1) }) now flag run
    exact ⟨_, ends, counted_ne_zero (by omega) (by omega) (by omega) (by omega)⟩
  · simp only [if_neg skips, flag, if_true, whole] at run
    have ends := replaced_turn now flag run
    have int : i32 a.data.length = a.data.length := i32_eq (by omega) (by omega)
    rw [int, if_pos (by omega), entered.already, Int.zero_add, int] at ends
    exact ⟨_, ends, by omega⟩

end first

section run
variable {a : Args B} {r r₁ r' : Ring B} {c c' : Call B} {turns : List (Ring B × Answer)}
variable {answer : Answer} {low : Int}

/-- A call that waits, with the latest clock reading it knows of. -/
structure Waits (a : Args B) (r : Ring B) (c : Call B) (low : Int) : Prop where
  pending : Pending a c
  pc : c.pc = .waiting
  ring : r.flags.nowait = false
  late : a.op = .write → a.deadline ≤ low

theorem deadline_le {now : TimeVal} (reading : now.Reading) (tv : c.tv = tvAddup a.timeout a.now)
    (late : 0 ≤ tvCompare now c.tv) : a.deadline ≤ now.micros := by
  rw [tv] at late
  rw [← deadline_eq a]
  exact micros_le (tvAddup_high _ _) reading late

theorem deadline_le_of_write {now : TimeVal} (reading : now.Reading)
    (tv : c.tv = tvAddup a.timeout a.now) (late : tvCompare c.tv now < 0) :
    a.deadline ≤ now.micros := by
  apply deadline_le reading tv
  rcases tvCompare_total c.tv now with early | late'
  · omega
  · exact late'

/-- A turn of a pending call that returns nothing has either reached the deadline or could move
nothing; one that waits goes on with the same deadline. -/
theorem section_spec (pending : Pending a c) (moves : a.op ≠ .close)
    (waits : a.flags.nowait = false)
    (timeout : a.flags.timeout = true) (reading : answer.now.Reading)
    (run : runSection answer.now r₁ c = some (r', c')) :
    (c'.pc = .done 0 → c.already = 0 ∧ r₁.isDestroy = false ∧
      ((a.op = .read ∧ Nothing a.flags (canRead r₁ c) c.need ∧
        (r₁.flags.nowait = true ∨ a.deadline ≤ answer.now.micros)) ∨
      (a.op = .write ∧ Nothing a.flags (canWrite r₁) c.need))) ∧
    (c'.pc = .waiting → Waits a r₁ c' answer.now.micros) ∧ c'.pc ≠ .entry := by
  have flags := pending.flags
  cases op : c.op with
  | close => exact absurd (pending.op.symm.trans op) moves
  | read =>
    rw [runSection, op] at run
    have isRead : a.op = .read := pending.op.symm.trans op
    rcases readSection_outcome answer.now pending waits run with
      ⟨v, done, notZero⟩ | ⟨done, zero, nothing, opened, gives⟩ | ⟨pc, pending', stays⟩
    · rw [done]
      exact ⟨fun same => absurd (Pc.done.inj same) notZero, fun same => Pc.noConfusion same,
        fun same => Pc.noConfusion same⟩
    · rw [zero, Int.sub_zero, flags] at nothing
      rw [done]
      refine ⟨fun _ => ⟨zero, opened, .inl ⟨isRead, nothing, ?_⟩⟩,
        fun same => Pc.noConfusion same, fun same => Pc.noConfusion same⟩
      exact gives.imp_right fun late => deadline_le reading pending.tv late
    · refine ⟨fun same => Pc.noConfusion (pc.symm.trans same), fun _ => ⟨pending', pc, stays, ?_⟩,
        fun same => Pc.noConfusion (pc.symm.trans same)⟩
      exact fun write => absurd (isRead.symm.trans write) (by decide)
  | write =>
    rw [runSection, op] at run
    have isWrite : a.op = .write := pending.op.symm.trans op
    rcases writeSection_outcome answer.now pending op waits timeout run with
      ⟨v, done, notZero⟩ | ⟨done, zero, nothing, opened, _⟩ | ⟨pc, pending', stays, late⟩
    · rw [done]
      exact ⟨fun same => absurd (Pc.done.inj same) notZero, fun same => Pc.noConfusion same,
        fun same => Pc.noConfusion same⟩
    · rw [zero, Int.sub_zero, flags] at nothing
      rw [done]
      exact ⟨fun _ => ⟨zero, opened, .inr ⟨isWrite, nothing⟩⟩,
        fun same => Pc.noConfusion same, fun same => Pc.noConfusion same⟩
    · refine ⟨fun same => Pc.noConfusion (pc.symm.trans same), fun _ => ⟨pending', pc, stays, ?_⟩,
        fun same => Pc.noConfusion (pc.symm.trans same)⟩
      exact fun _ => deadline_le_of_write reading pending.tv late

/-- A call that has returned has no more turns. -/
theorem zeroInTime_done {v : Int} (pc : c.pc = .done v) (turns : List (Ring B × Answer)) :
    ZeroInTime a c turns := by
  cases turns with
  | nil => trivial
  | cons turn turns =>
    intro r' c' run
    simp [resume, pc] at run

/-- A turn after the first one. -/
theorem later_turn (timed : Timed r a turns) (waits : Waits a r c low)
    (same : r₁.length = r.length ∧ r₁.flags = r.flags) (reading : answer.now.Reading)
    (le : low ≤ answer.now.micros) (run : resume answer r₁ c = some (r', c')) :
    (c'.pc = .done 0 → InTime a c answer) ∧
      (c'.pc = .waiting → Waits a r c' answer.now.micros) ∧ c'.pc ≠ .entry := by
  simp only [resume, waits.pc] at run
  obtain ⟨cond, _, turn⟩ := Option.bind_eq_some_iff.mp run
  have kept : (r₁.setCond c.op cond).flags = r₁.flags := by
    cases c.op <;> rfl
  by_cases ended : answer.wake = .timedOut
  · have inTime : InTime a c answer := by
      refine .inr ⟨waits.pc, ended, ?_⟩
      rw [waits.pending.tv, deadline_eq]
    have returned : c' = c.ret c.already := by
      have timeout : c.flags.timeout = true := by rw [waits.pending.flags, timed.timeout]
      rw [if_pos ended, if_pos timeout] at turn
      have ends := congrArg Prod.snd (Option.some.inj turn)
      split at ends
      · exact ends.symm
      · exact ends.symm
    rw [returned]
    exact ⟨fun _ => inTime, fun same => Pc.noConfusion same, fun same => Pc.noConfusion same⟩
  · rw [if_neg ended] at turn
    obtain ⟨zero, stays, notEntry⟩ :=
      section_spec waits.pending timed.op timed.waits timed.timeout reading turn
    refine ⟨?_, ?_, notEntry⟩
    · intro done
      rcases (zero done).2.2 with ⟨_, _, ring | late⟩ | ⟨write, _⟩
      · rw [kept, same.2] at ring
        exact absurd (waits.ring.symm.trans ring) Bool.false_ne_true
      · exact .inl late
      · exact .inl ((waits.late write).trans le)
    · intro waiting
      have next := stays waiting
      exact ⟨next.pending, next.pc, waits.ring, next.late⟩

/-- The turns after the first one return 0 bytes only in time. -/
theorem later_turns (timed : Timed r a turns) {rest : List (Ring B × Answer)}
    (waits : Waits a r c low)
    (rings : ∀ turn ∈ rest, turn.1.length = r.length ∧ turn.1.flags = r.flags)
    (readings : ∀ turn ∈ rest, turn.2.now.Reading)
    (clock : (low :: rest.map fun turn => turn.2.now.micros).Pairwise (· ≤ ·)) :
    ZeroInTime a c rest := by
  induction rest generalizing c low with
  | nil => trivial
  | cons turn rest ih =>
    obtain ⟨r₁, answer⟩ := turn
    intro r' c' run
    rw [List.map_cons] at clock
    obtain ⟨first, later⟩ := List.pairwise_cons.mp clock
    obtain ⟨zero, stays, notEntry⟩ := later_turn timed waits (rings _ List.mem_cons_self)
      (readings _ List.mem_cons_self) (first _ List.mem_cons_self) run
    refine ⟨zero, ?_⟩
    cases pc : c'.pc with
    | entry => exact absurd pc notEntry
    | waiting =>
      apply ih (stays pc) _ _ later
      · exact fun turn member => rings turn (List.mem_cons_of_mem _ member)
      · exact fun turn member => readings turn (List.mem_cons_of_mem _ member)
    | done v => exact zeroInTime_done pc rest

/-- What the first turn of an accepted call does. -/
theorem first_turn (timed : Timed r a turns) (accepts : ¬Refuses r a)
    (same : r₁.length = r.length ∧ r₁.flags = r.flags) (reading : answer.now.Reading)
    (run : resume answer r₁ (enter r a) = some (r', c')) :
    (c'.pc = .done 0 → a.deadline ≤ answer.now.micros ∨ GivesUp r₁ a) ∧
      (c'.pc = .waiting → Waits a r c' answer.now.micros) ∧ c'.pc ≠ .entry := by
  have entered := enter_accepted timed accepts
  have unsigned := timed.unsigned
  have some' := timed.some
  simp only [resume, entered.pc] at run
  have ended : ∀ v, c'.pc = .done v → (v = 0 → GivesUp r₁ a) →
      (c'.pc = .done 0 → a.deadline ≤ answer.now.micros ∨ GivesUp r₁ a) ∧
        (c'.pc = .waiting → Waits a r c' answer.now.micros) ∧ c'.pc ≠ .entry := by
    intro v done gives
    rw [done]
    exact ⟨fun zero => .inr (gives (Pc.done.inj zero)), fun waits => Pc.noConfusion waits,
      fun pc => Pc.noConfusion pc⟩
  have pends : Pending a (enter r a) → (a.op = .write → (enter r a).need = a.data.length) →
      (c'.pc = .done 0 → a.deadline ≤ answer.now.micros ∨ GivesUp r₁ a) ∧
        (c'.pc = .waiting → Waits a r c' answer.now.micros) ∧ c'.pc ≠ .entry := by
    intro pending asks
    obtain ⟨zero, stays, notEntry⟩ :=
      section_spec pending timed.op timed.waits timed.timeout reading run
    refine ⟨fun done => ?_, fun waits => ?_, notEntry⟩
    · obtain ⟨_, opened, ⟨read, nothing, ring | late⟩ | ⟨write, nothing⟩⟩ := zero done
      · rw [← enter_congr same.1] at nothing
        simp only [GivesUp, read]
        exact .inr (.inr ⟨opened, ring, nothing⟩)
      · exact .inl late
      · rw [asks write] at nothing
        have keeps := pending.keeps (entered.op.trans write)
        rw [entered.flags] at keeps
        simp only [GivesUp, write]
        exact .inr ⟨opened, keeps, .inr nothing⟩
    · have next := stays waits
      exact ⟨next.pending, next.pc, same.2 ▸ next.ring, next.late⟩
  have positive : 0 < r₁.length := same.1 ▸ timed.positive
  have small : r₁.length ≤ 2 ^ 31 := same.1 ▸ timed.small
  have returned : ∀ v, (∃ r', runSection answer.now r₁ (enter r a) = some (r', (enter r a).ret v)) →
      c'.pc = .done v := by
    rintro v ⟨r'', result⟩
    obtain ⟨_, rfl⟩ := Prod.mk.inj (Option.some.inj (run.symm.trans result))
    rfl
  cases op : a.op with
  | close => exact absurd op timed.op
  | read =>
    have section_eq : runSection answer.now r₁ (enter r a) =
        readSection answer.now r₁ (enter r a) := by rw [runSection, entered.op, op]
    have notWrite : a.op ≠ .write := by rw [op]; decide
    cases peek : a.flags.peek with
    | true =>
      obtain ⟨low, high⟩ := entered.peeks op peek
      exact pends (entered.pending low high fun write => absurd write notWrite)
        fun write => absurd write notWrite
    | false =>
      have asks := entered.asks fun _ => peek
      by_cases long : 2 ^ 31 ≤ a.data.length
      · apply ended 0
        · apply returned
          rw [section_eq]
          exact readSection_long answer.now entered op peek long unsigned positive small
        · intro _
          simp only [GivesUp, op]
          exact .inl ⟨long, peek⟩
      · rw [i32_eq (by omega) (by omega)] at asks
        exact pends (entered.pending (by omega) (by omega) fun write => absurd write notWrite)
          fun write => absurd write notWrite
  | write =>
    have section_eq : runSection answer.now r₁ (enter r a) =
        writeSection answer.now r₁ (enter r a) := by rw [runSection, entered.op, op]
    cases replaces : a.flags.replaceOld with
    | true =>
      rw [section_eq] at run
      obtain ⟨v, done, notZero⟩ := writeSection_replaced answer.now entered op replaces some'
        unsigned positive small run
      exact ended v done fun zero => absurd zero notZero
    | false =>
      have asks := entered.asks fun read => absurd (op.symm.trans read) (by decide)
      by_cases long : 2 ^ 31 ≤ a.data.length
      · by_cases closed : r₁.isDestroy = true
        · apply ended (-1)
          · apply returned
            rw [section_eq, writeSection, if_pos closed, entered.already, if_neg (by omega)]
            exact ⟨r₁, rfl⟩
          · exact fun zero => absurd zero (by decide)
        · have opened : r₁.isDestroy = false := Bool.eq_false_iff.mpr closed
          apply ended 0
          · apply returned
            rw [section_eq]
            exact writeSection_long answer.now entered op replaces long unsigned positive small
              opened
          · intro _
            simp only [GivesUp, op]
            exact ⟨opened, replaces, .inl long⟩
      · rw [i32_eq (by omega) (by omega)] at asks
        exact pends (entered.pending (by omega) (by omega) fun _ => replaces) fun _ => asks

/-- A read without bytes of a ring that never waits. -/
theorem readSection_idle (now : TimeVal) (pending : Pending a c) (zero : c.already = 0)
    (opened : r₁.isDestroy = false) (ring : r₁.flags.nowait = true)
    (nothing : Nothing c.flags (canRead r₁ c) c.need) :
    ∃ r', readSection now r₁ c = some (r', c.ret 0) := by
  have less := pending.need
  simp only [readSection, pending.asked, Option.bind_eq_bind]
  generalize canRead r₁ c = can at nothing ⊢
  rw [zero, Int.sub_zero]
  rcases really_cases c.flags can c.need (by omega) with
    ⟨none, _, short⟩ | ⟨_, _, _, some'⟩
  · have tail : (readTail now can c.need r₁ c).2 = c.ret 0 := by
      have notClosed : ¬r₁.isDestroy = true := Bool.eq_false_iff.mp opened
      rw [readTail, if_neg (by omega), if_neg (by omega), if_neg notClosed,
        if_pos (.inr (.inr ring)), readOver, zero]
    refine ⟨(readTail now can c.need r₁ c).1, ?_⟩
    rw [if_neg (by omega), Option.bind_some, ← tail]
  · exact absurd nothing some'

/-- A write without places before its deadline. -/
theorem writeSection_idle (now : TimeVal) (pending : Pending a c) (write : c.op = .write)
    (zero : c.already = 0) (opened : r₁.isDestroy = false) (timeout : c.flags.timeout = true)
    (early : 0 ≤ tvCompare c.tv now) (nothing : Nothing c.flags (canWrite r₁) c.need) :
    writeSection now r₁ c = some (r₁, c.ret 0) := by
  have less := pending.need
  rw [writeSection_opened now pending write opened]
  generalize canWrite r₁ = can at nothing ⊢
  rw [zero, Int.sub_zero]
  rcases really_cases c.flags can c.need (by omega) with
    ⟨none, _, short⟩ | ⟨_, _, _, some'⟩
  · have tail : writeTail now can c.need r₁ c = (r₁, c.ret 0) := by
      rw [writeTail, if_neg (by omega), if_neg (by omega), zero]
      split
      · rfl
      · rw [if_pos ⟨timeout, early⟩]
    rw [if_neg (by omega), Option.bind_some, tail]
  · exact absurd nothing some'

/-- A call that gives up does so before its deadline too. -/
theorem first_turn_gives (timed : Timed r a turns) (accepts : ¬Refuses r a)
    (same : r₁.length = r.length ∧ r₁.flags = r.flags) (reading : answer.now.Reading)
    (gives : GivesUp r₁ a) (early : answer.now.micros < a.deadline) :
    ∃ r' c', resume answer r₁ (enter r a) = some (r', c') ∧ c'.pc = .done 0 := by
  have entered := enter_accepted timed accepts
  have unsigned := timed.unsigned
  have some' := timed.some
  have positive : 0 < r₁.length := same.1 ▸ timed.positive
  have small : r₁.length ≤ 2 ^ 31 := same.1 ▸ timed.small
  have returned : (∃ r', runSection answer.now r₁ (enter r a) = some (r', (enter r a).ret 0)) →
      ∃ r' c', resume answer r₁ (enter r a) = some (r', c') ∧ c'.pc = .done 0 := by
    rintro ⟨r', run⟩
    refine ⟨r', (enter r a).ret 0, ?_, rfl⟩
    simp only [resume, entered.pc]
    exact run
  apply returned
  rw [runSection, entered.op]
  cases op : a.op with
  | close => exact absurd op timed.op
  | read =>
    simp only [GivesUp, op, enter_congr same.1] at gives
    have notWrite : a.op ≠ .write := by rw [op]; decide
    rcases gives with ⟨long, peek⟩ | ⟨opened, ring, nothing⟩
    · exact readSection_long answer.now entered op peek long unsigned positive small
    · rw [← entered.flags] at nothing
      have idle : Pending a (enter r a) →
          ∃ r', readSection answer.now r₁ (enter r a) = some (r', (enter r a).ret 0) :=
        fun pending => readSection_idle answer.now pending entered.already opened ring nothing
      cases peek : a.flags.peek with
      | true =>
        obtain ⟨low, high⟩ := entered.peeks op peek
        exact idle (entered.pending low high fun write => absurd write notWrite)
      | false =>
        have asks := entered.asks fun _ => peek
        by_cases long : 2 ^ 31 ≤ a.data.length
        · exact readSection_long answer.now entered op peek long unsigned positive small
        · rw [i32_eq (by omega) (by omega)] at asks
          exact idle (entered.pending (by omega) (by omega) fun write => absurd write notWrite)
  | write =>
    simp only [GivesUp, op] at gives
    obtain ⟨opened, keeps, why⟩ := gives
    have asks := entered.asks fun read => absurd (op.symm.trans read) (by decide)
    by_cases long : 2 ^ 31 ≤ a.data.length
    · exact writeSection_long answer.now entered op keeps long unsigned positive small opened
    · rw [i32_eq (by omega) (by omega)] at asks
      have nothing := why.resolve_left long
      rw [← asks, ← entered.flags] at nothing
      have before : 0 ≤ tvCompare (enter r a).tv answer.now := by
        rcases tvCompare_total (enter r a).tv answer.now with before | after
        · exact before
        · have := deadline_le reading entered.tv after
          omega
      exact ⟨r₁, writeSection_idle answer.now
        (entered.pending (by omega) (by omega) fun _ => keeps) (entered.op.trans op)
        entered.already opened (entered.flags ▸ timed.timeout) before nothing⟩

end run

section claim
variable {r : Ring B} {a : Args B} {turns : List (Ring B × Answer)}

/-- The call returns 0 bytes before its deadline: it is refused, or its first turn gives up. -/
def Hasty (r : Ring B) (a : Args B) (turns : List (Ring B × Answer)) : Prop :=
  (Refuses r a ∧ a.now.micros < a.deadline) ∨
    (¬Refuses r a ∧ ∃ r₁ answer rest, turns = (r₁, answer) :: rest ∧ GivesUp r₁ a ∧
      answer.now.micros < a.deadline)

/-- ring_read and ring_write with RING_TIMEOUT wait for their deadline, unless they are refused
or their first turn gives up. -/
theorem timed_iff (timed : Timed r a turns) :
    WaitsForDeadline r a turns ↔ ¬Hasty r a turns := by
  constructor
  · rintro ⟨entry, zero⟩ hasty
    rcases hasty with ⟨refuses, early⟩ | ⟨accepts, r₁, answer, rest, rfl, gives, early⟩
    · have := entry (enter_refused timed refuses)
      omega
    · obtain ⟨r', c', run, done⟩ := first_turn_gives timed accepts
        (timed.rings _ List.mem_cons_self) (timed.readings _ List.mem_cons_self) gives early
      rcases (zero r' c' run).1 done with late | ⟨waiting, _⟩
      · omega
      · rw [(enter_accepted timed accepts).pc] at waiting
        contradiction
  · intro patient
    by_cases refuses : Refuses r a
    · have done := enter_refused timed refuses
      refine ⟨fun _ => ?_, zeroInTime_done done turns⟩
      by_contra early
      exact patient (.inl ⟨refuses, by omega⟩)
    · have entered := enter_accepted timed refuses
      refine ⟨fun done => Pc.noConfusion (entered.pc.symm.trans done), ?_⟩
      cases turns with
      | nil => trivial
      | cons turn rest =>
        obtain ⟨r₁, answer⟩ := turn
        intro r' c' run
        obtain ⟨zero, stays, notEntry⟩ := first_turn timed refuses
          (timed.rings _ List.mem_cons_self) (timed.readings _ List.mem_cons_self) run
        constructor
        · intro done
          rcases zero done with late | gives
          · exact .inl late
          · refine .inl (Int.not_lt.mp fun early => patient (.inr ⟨refuses, ?_⟩))
            exact ⟨r₁, answer, rest, rfl, gives, early⟩
        · cases pc : c'.pc with
          | entry => exact absurd pc notEntry
          | done v => exact zeroInTime_done pc rest
          | waiting =>
            apply later_turns timed (stays pc)
            · exact fun turn member => timed.rings turn (List.mem_cons_of_mem _ member)
            · exact fun turn member => timed.readings turn (List.mem_cons_of_mem _ member)
            · exact timed.clock

end claim

section example_turns

/-- A ring of one place, which is taken. -/
def fullRing : Ring Nat where
  isDestroy := false
  cur := 0
  endAt := 1
  length := 2
  flags := ⟨false, false, false, false, false, false⟩
  conReader := ⟨0, 0⟩
  conWriter := ⟨0, 0⟩
  buffer := [7, 0]

/-- One byte, for which a call waits a second. -/
def patientArgs (op : Op) : Args Nat where
  op := op
  flags := ⟨false, false, false, false, true, false⟩
  data := [9]
  peekSkip := 0
  timeout := ⟨1, 0⟩
  now := ⟨10, 500000⟩

theorem patient_timed (op : Op) (moves : op ≠ .close) (r : Ring Nat)
    (same : r.length = 2) (wake : Wake) :
    Timed r (patientArgs op) [(r, ⟨⟨10, 500001⟩, wake⟩)] where
  op := moves
  timeout := rfl
  waits := rfl
  some := Nat.one_pos
  unsigned := show 1 < 2 ^ 32 by decide
  message message := absurd message (by simp [patientArgs])
  positive := by omega
  small := by omega
  rings turn member := by
    rw [List.mem_singleton.mp member]
    exact ⟨rfl, rfl⟩
  readings turn member := by
    rw [List.mem_singleton.mp member]
    exact ⟨show (0 : Int) ≤ 500001 by decide, show (500001 : Int) < 1000000 by decide⟩
  clock := List.pairwise_singleton _ _

/-- A read of the byte in the ring is in time. -/
theorem timed_iff_read :
    WaitsForDeadline fullRing (patientArgs .read) [(fullRing, ⟨⟨10, 500001⟩, .signal⟩)] := by
  apply (timed_iff (patient_timed .read (by decide) fullRing rfl .signal)).mpr
  rintro (⟨⟨_, peek, _⟩, _⟩ | ⟨_, r₁, answer, rest, same, gives, _⟩)
  · exact absurd peek (by decide)
  · obtain ⟨rfl, rfl⟩ := Prod.mk.inj (List.cons.inj same).1
    rcases gives with ⟨long, _⟩ | ⟨_, ring, _⟩
    · exact absurd long (by decide)
    · exact absurd ring (by decide)

/-- A write to the full ring returns 0 bytes with a second left. -/
theorem write_gives_up :
    Timed fullRing (patientArgs .write) [(fullRing, ⟨⟨10, 500001⟩, .signal⟩)] ∧
      fullRing.isDestroy = false ∧
      ¬WaitsForDeadline fullRing (patientArgs .write)
        [(fullRing, ⟨⟨10, 500001⟩, .signal⟩)] := by
  refine ⟨patient_timed .write (by decide) fullRing rfl .signal, rfl, ?_⟩
  rintro ⟨_, zero⟩
  have run : resume ⟨⟨10, 500001⟩, .signal⟩ fullRing (enter fullRing (patientArgs .write)) =
      some (fullRing, (enter fullRing (patientArgs .write)).ret 0) := by
    with_unfolding_all rfl
  rcases (zero _ _ run).1 rfl with late | ⟨waiting, _⟩
  · exact absurd late (by decide)
  · exact absurd waiting (by decide +kernel)

end example_turns
end MoonInWater.RingBuffer
