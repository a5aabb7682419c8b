import MoonInWater.RingBuffer.Section

/-! The ring as a bounded queue of bytes: sections take from its front and add at
its end, whatever calls they belong to. -/
namespace MoonInWater.RingBuffer
open CInt Circular Threads
variable {B : Type} {bufferLen n : Nat} {r r' : Ring B} {c c' : Call B} {bytes : List B}

theorem Ring.Ok.took (ok : r.Ok bufferLen) (n : Nat) : (r.took n).Ok bufferLen := by
  have := ok.cur
  rw [Ring.took]
  split
  · exact ok
  · exact ⟨ok.length, ok.positive, ok.small, ok.buffer, Nat.mod_lt _ (by omega), ok.endAt⟩

theorem Ring.Ok.put (ok : r.Ok bufferLen) {buffer : List B}
    (wrote : 0 < n → Wrote r.buffer r.endAt bytes buffer) : (r.put buffer n).Ok bufferLen := by
  have := ok.endAt
  rw [Ring.put]
  split
  · exact ok
  · have length := (wrote (by omega)).1
    exact ⟨ok.length, ok.positive, ok.small, length.trans ok.buffer, ok.cur,
      Nat.mod_lt _ (by omega)⟩

theorem used_took (ok : r.Ok bufferLen) (le : n ≤ used r) : used (r.took n) = used r - n := by
  have less := used_lt ok
  rw [Ring.took]
  split
  · omega
  · have moved : ((r.cur + n) % r.length + (used r - n)) % r.length = r.endAt := by
      rw [Nat.mod_add_mod, Nat.add_assoc, Nat.add_sub_cancel' le, ← endAt_eq ok]
    have taken := ok.took n
    rw [Ring.took, if_neg ‹_›] at taken
    apply used_unique taken moved
    exact Nat.lt_of_le_of_lt (Nat.sub_le ..) less

theorem content_took (ok : r.Ok bufferLen) (le : n ≤ used r) :
    content r = window r.buffer r.cur n ++ content (r.took n) := by
  have less := used_lt ok
  have buffer := ok.buffer
  have rest : content (r.took n) = (content r).drop n := by
    rw [content, used_took ok le, content, window_drop (by omega) le, Ring.took]
    split
    · rename_i none
      rw [none, Nat.add_zero]
    · simp only [← buffer, window_mod]
  have front : (content r).take n = window r.buffer r.cur n := window_take le
  rw [rest, ← front, List.take_append_drop]

theorem used_put (ok : r.Ok bufferLen) {buffer : List B}
    (wrote : 0 < n → Wrote r.buffer r.endAt bytes buffer) (le : used r + n ≤ bufferLen) :
    used (r.put buffer n) = used r + n := by
  have length := ok.length
  have put := ok.put wrote
  rw [Ring.put] at put ⊢
  split
  · omega
  · rename_i some'
    rw [if_neg some'] at put
    apply used_unique put
    · simp only
      rw [endAt_eq ok, Nat.mod_add_mod, Nat.add_assoc]
    · simp only
      omega

theorem content_put (ok : r.Ok bufferLen) {buffer : List B} (count : bytes.length = n)
    (wrote : 0 < n → Wrote r.buffer r.endAt bytes buffer) (le : used r + n ≤ bufferLen) :
    content (r.put buffer n) = content r ++ bytes := by
  have length := ok.length
  have size := ok.buffer
  by_cases none : n = 0
  · subst none
    rw [List.length_eq_zero_iff.mp count, List.append_nil, Ring.put, if_pos rfl]
  · rw [content, used_put ok wrote le, content, Ring.put, if_neg none, ← count]
    apply (wrote (by omega)).window
    · rw [size, endAt_eq ok, Nat.mod_mod]
    · omega

/-- What a section with the bytes `bytes` makes of the content. -/
def Passes (bytes before after : List B) : Op → Prop
  | .read => before = bytes ++ after
  | .write => after = before ++ bytes
  | .close => bytes = [] ∧ after = before

/-- A section of the call `c` has copied `bytes`. -/
structure Moves (bufferLen : Nat) (r : Ring B) (c : Call B) (r' : Ring B) (c' : Call B)
    (bytes : List B) : Prop where
  ring : r'.Ok bufferLen
  call : c'.Ok r'.isDestroy
  op : c'.op = c.op
  flags : c'.flags = c.flags
  length : c'.data.length = c.data.length
  moved : c'.moved = c.moved ++ bytes
  passes : Passes bytes (content r) (content r') c.op
  closed : r.isDestroy = true → r'.isDestroy = true
  whole : c.flags.msgmode = true → bytes = [] ∨ c'.moved.length = c.data.length

theorem Tail.ret {closed : Bool} {moved : List B}
    (tail : Tail closed own can need moved.length next (.done v)) :
    v = moved.length ∨ v = -1 ∧ moved = [] ∧ closed = true := by
  cases tail with
  | rest _ => exact .inl rfl
  | all _ => exact .inl rfl
  | closed _ isClosed none =>
    exact .inr ⟨rfl, List.length_eq_zero_iff.mp (by exact_mod_cast none), isClosed⟩

/-- A call keeps its invariant when it copies on between `moved` and its end. -/
theorem Call.Ok.after {closed : Bool} {can need : Int} {pc : Pc} (ok : c.Ok closed)
    {data : List B} (length : data.length = c.data.length)
    (fits : c.moved.length + bytes.length ≤ c.data.length)
    (copied : data.take (c.moved.length + bytes.length) = c.moved ++ bytes)
    (tail : Tail closed own can need (c.moved ++ bytes).length next pc) :
    (c.after data bytes pc).Ok closed where
  noPeek := ok.noPeek
  noReplace := ok.noReplace
  small := by
    have small := ok.small
    rwa [← length] at small
  need := by
    have need := ok.need
    rwa [← length] at need
  skip := ok.skip
  already := by simp [Call.after, ok.already]
  fits := by
    simp only [Call.after, List.length_append, length]
    exact fits
  copied := by
    simp only [Call.after, List.length_append]
    exact copied
  ret v done := by
    change pc = .done v at done
    subst done
    exact tail.ret

theorem amount_whole {flags : Flags} (msgmode : flags.msgmode = true) (need can : Nat) :
    amount flags need can = 0 ∨ amount flags need can = need := by
  rw [amount]
  split
  · exact .inl rfl
  · rename_i whole
    have le : need ≤ can := by
      by_contra short
      exact whole ⟨msgmode, by omega⟩
    exact .inr (Nat.min_eq_left le)

theorem read_moves (now : TimeVal) (ok : r.Ok bufferLen) (call : c.Ok r.isDestroy)
    (read : c.op = .read) :
    ∃ r' c' bytes, readSection now r c = some (r', c') ∧ Moves bufferLen r c r' c' bytes := by
  obtain ⟨cond, pc, run, tail⟩ := readSection_eq now ok call read
  have fits := call.fits
  obtain ⟨le_need, le_used⟩ := amount_le c.flags (c.data.length - c.moved.length) (used r)
  have less := used_lt ok
  have whole := fun msgmode : c.flags.msgmode = true =>
    amount_whole msgmode (c.data.length - c.moved.length) (used r)
  generalize amount c.flags (c.data.length - c.moved.length) (used r) = n at *
  have count : (window r.buffer r.cur n).length = n := length_window (by rw [ok.buffer]; omega)
  have closed : (r.took n).isDestroy = r.isDestroy := by
    rw [Ring.took]
    split <;> rfl
  have taken := ok.took n
  have length : (overwrite c.data c.moved.length (window r.buffer r.cur n)).length =
      c.data.length := length_overwrite (by omega)
  have room : c.moved.length + (window r.buffer r.cur n).length ≤ c.data.length := by omega
  refine ⟨_, _, window r.buffer r.cur n, run, ⟨taken.length, taken.positive, taken.small,
    taken.buffer, taken.cur, taken.endAt⟩, ?_, rfl, rfl, length, rfl, ?_, fun c => closed.trans c,
    fun msgmode => ?_⟩
  · rw [closed]
    apply call.after length room _ tail
    rw [take_overwrite fits, call.copied]
  · rw [read]
    exact content_took ok le_used
  · rcases whole msgmode with none | all
    · subst none
      exact .inl (List.length_eq_zero_iff.mp count)
    · refine .inr ?_
      simp only [Call.after, List.length_append]
      omega

theorem write_moves (now : TimeVal) (ok : r.Ok bufferLen) (call : c.Ok r.isDestroy)
    (write : c.op = .write) :
    ∃ r' c' bytes, writeSection now r c = some (r', c') ∧ Moves bufferLen r c r' c' bytes := by
  have fits := call.fits
  cases opened : r.isDestroy with
  | true =>
    have run : writeSection now r c =
        some (r, c.ret (if 0 < c.already then c.already else -1)) := by
      rw [writeSection, if_pos opened]
    refine ⟨_, _, [], run, ⟨ok, ?_, rfl, rfl, rfl, ?_, ?_, id, fun _ => .inl rfl⟩⟩
    · have kept := call.already
      have marked := call.ret
      refine ⟨call.noPeek, call.noReplace, call.small, call.need, call.skip, kept, fits,
        call.copied, fun v done => ?_⟩
      change Pc.done _ = .done v at done
      cases done
      by_cases some' : 0 < c.already
      · exact .inl (by rw [if_pos some']; exact kept)
      · refine .inr ⟨if_neg some', ?_, opened⟩
        exact List.length_eq_zero_iff.mp (by simp only [Call.ret]; omega)
    · exact (List.append_nil c.moved).symm
    · rw [write]
      exact (List.append_nil _).symm
  | false =>
    obtain ⟨buffer, cond, pc, wrote, run, tail⟩ := writeSection_eq now ok call write opened
    obtain ⟨le_need, le_free⟩ := amount_le c.flags (c.data.length - c.moved.length)
      (bufferLen - used r)
    have less := used_lt ok
    have length := ok.length
    have whole := fun msgmode : c.flags.msgmode = true =>
      amount_whole msgmode (c.data.length - c.moved.length) (bufferLen - used r)
    generalize amount c.flags (c.data.length - c.moved.length) (bufferLen - used r) = n at *
    have count : ((c.data.drop c.moved.length).take n).length = n := by
      rw [List.length_take, List.length_drop]
      omega
    have stays : (r.put buffer n).isDestroy = r.isDestroy := by
      rw [Ring.put]
      split <;> rfl
    have put := ok.put wrote
    refine ⟨_, _, (c.data.drop c.moved.length).take n, run, ⟨put.length, put.positive, put.small,
      put.buffer, put.cur, put.endAt⟩, ?_, rfl, rfl, rfl, rfl, ?_, fun c => stays.trans c,
      fun msgmode => ?_⟩
    · rw [stays]
      apply call.after rfl (by omega) _ tail
      rw [count, List.take_add, call.copied]
    · rw [write]
      exact content_put ok count wrote (by omega)
    · rcases whole msgmode with none | all
      · subst none
        exact .inl (List.length_eq_zero_iff.mp count)
      · refine .inr ?_
        simp only [Call.after, List.length_append]
        omega

/-- A call that returns what it has copied, or 0 when it has copied nothing. -/
theorem Call.Ok.returns {closed : Bool} {v : Int} (ok : c.Ok closed) (value : v = c.moved.length) :
    (c.ret v).Ok closed where
  noPeek := ok.noPeek
  noReplace := ok.noReplace
  small := ok.small
  need := ok.need
  skip := ok.skip
  already := ok.already
  fits := ok.fits
  copied := ok.copied
  ret w done := by
    cases done
    exact .inl value

theorem Call.Ok.mono {closed closed' : Bool} (ok : c.Ok closed)
    (stays : closed = true → closed' = true) : c.Ok closed' where
  noPeek := ok.noPeek
  noReplace := ok.noReplace
  small := ok.small
  need := ok.need
  skip := ok.skip
  already := ok.already
  fits := ok.fits
  copied := ok.copied
  ret v done := (ok.ret v done).imp_right fun ⟨value, empty, isClosed⟩ =>
    ⟨value, empty, stays isClosed⟩

/-- ring_close copies nothing. -/
def Call.Closes (c : Call B) : Prop := c.op = .close → c.moved = []

theorem close_moves (ok : r.Ok bufferLen) (call : c.Ok r.isDestroy) (close : c.op = .close)
    (closes : c.Closes) :
    Moves bufferLen r c (closeSection r c).1 (closeSection r c).2 [] := by
  have none := closes close
  have zero : (0 : Int) = c.moved.length := by rw [none]; rfl
  rw [closeSection]
  by_cases closed : r.isDestroy = true
  · rw [if_pos closed]
    refine ⟨ok, call.returns zero, rfl, rfl, rfl, (List.append_nil _).symm, ?_, id,
      fun _ => .inl rfl⟩
    rw [close]
    exact ⟨rfl, rfl⟩
  · rw [if_neg closed]
    refine ⟨⟨ok.length, ok.positive, ok.small, ok.buffer, ok.cur, ok.endAt⟩,
      (call.mono fun _ => rfl).returns zero, rfl, rfl, rfl, (List.append_nil _).symm, ?_,
      fun _ => rfl, fun _ => .inl rfl⟩
    rw [close]
    exact ⟨rfl, rfl⟩

/-- Every turn stays within the storage and the caller's buffer. -/
theorem runSection_moves (now : TimeVal) (ok : r.Ok bufferLen) (call : c.Ok r.isDestroy)
    (closes : c.Closes) :
    ∃ r' c' bytes, runSection now r c = some (r', c') ∧ Moves bufferLen r c r' c' bytes := by
  cases op : c.op with
  | read =>
    simp only [runSection, op]
    exact read_moves now ok call op
  | write =>
    simp only [runSection, op]
    exact write_moves now ok call op
  | close =>
    simp only [runSection, op]
    exact ⟨_, _, [], rfl, close_moves ok call op closes⟩

theorem Ring.Ok.setCond (ok : r.Ok bufferLen) (op : Op) (next : Cond) :
    (r.setCond op next).Ok bufferLen := by
  cases op <;> exact ⟨ok.length, ok.positive, ok.small, ok.buffer, ok.cur, ok.endAt⟩

@[simp] theorem content_setCond (r : Ring B) (op : Op) (next : Cond) :
    content (r.setCond op next) = content r := by cases op <;> rfl

@[simp] theorem isDestroy_setCond (r : Ring B) (op : Op) (next : Cond) :
    (r.setCond op next).isDestroy = r.isDestroy := by cases op <;> rfl

theorem resume_moves (a : Answer) (ok : r.Ok bufferLen) (call : c.Ok r.isDestroy)
    (closes : c.Closes) (resumed : resume a r c = some (r', c')) :
    ∃ bytes, Moves bufferLen r c r' c' bytes := by
  cases pc : c.pc with
  | done _ =>
    simp only [resume, pc] at resumed
    contradiction
  | entry =>
    simp only [resume, pc] at resumed
    obtain ⟨r₁, c₁, bytes, run, moves⟩ := runSection_moves a.now ok call closes
    cases resumed.symm.trans run
    exact ⟨bytes, moves⟩
  | waiting =>
    simp only [resume, pc] at resumed
    cases left : a.wake.leave (r.cond c.op) with
    | none =>
      simp only [left, Option.bind_eq_bind, Option.bind_none] at resumed
      contradiction
    | some next =>
      simp only [left, Option.bind_eq_bind, Option.bind_some] at resumed
      have ok' := ok.setCond c.op next
      have call' : c.Ok (r.setCond c.op next).isDestroy := by
        rwa [isDestroy_setCond]
      by_cases late : a.wake = .timedOut
      · rw [if_pos late] at resumed
        split at resumed
        · have returned : (if c.op = .read then readOver (r.setCond c.op next) c
              else (r.setCond c.op next, c.ret c.already)) =
              (r.setCond c.op next, c.ret c.already) := by
            split
            · rename_i read
              simp [readOver, call.noPeek read]
            · rfl
          rw [returned] at resumed
          cases resumed
          refine ⟨[], ok', call'.returns call.already, rfl, rfl, rfl, (List.append_nil _).symm, ?_,
            by simp, fun _ => .inl rfl⟩
          rw [content_setCond]
          cases c.op with
          | read => exact rfl
          | write => exact (List.append_nil _).symm
          | close => exact ⟨rfl, rfl⟩
        · contradiction
      · rw [if_neg late] at resumed
        obtain ⟨r₁, c₁, bytes, run, moves⟩ := runSection_moves a.now ok' call' closes
        cases resumed.symm.trans run
        have passes := moves.passes
        have closed := moves.closed
        rw [content_setCond] at passes
        rw [isDestroy_setCond] at closed
        exact ⟨bytes, { moves with passes := passes, closed := closed }⟩

/-- The bytes that the sections of an operation have copied, in order. -/
def copied (op : Op) (log : List (Op × List B)) : List B :=
  (log.filter fun e => e.1 = op).flatMap Prod.snd

theorem copied_append (op : Op) (log : List (Op × List B)) (e : Op × List B) :
    copied op (log ++ [e]) = copied op log ++ if e.1 = op then e.2 else [] := by
  simp only [copied, List.filter_append, List.flatMap_append]
  congr 1
  by_cases same : e.1 = op <;> simp [same]

/-- The invariant of the runs. -/
structure Invariant (bufferLen : Nat) (c : Config (Shared B) (Call B)) : Prop where
  ring : c.shared.ring.Ok bufferLen
  calls : ∀ call ∈ c.calls, call.Ok c.shared.ring.isDestroy ∧ call.Closes
  fifo : copied .write c.shared.log = copied .read c.shared.log ++ content c.shared.ring

/-- Calls of ring_read without RING_PEEK, ring_write without RING_REPLACE_OLD, and
ring_close, on buffers shorter than 2^31. -/
def Call.Plain (c : Call B) : Prop :=
  (c.op = .read → c.flags.peek = false) ∧ (c.op = .write → c.flags.replaceOld = false) ∧
    c.data.length < 2 ^ 31

instance (c : Call B) : Decidable c.Plain := inferInstanceAs (Decidable (_ ∧ _))

def Plain (c : Config (Shared B) (Call B)) : Prop := ∀ call ∈ c.calls, call.Plain

instance : DecidablePred (Plain (B := B)) := fun _ => List.decidableBAll ..

/-- A ring fresh from ring_new, without calls. -/
def initial (bufferLen : Nat) (flags : Flags) (storage : List B) :
    Config (Shared B) (Call B) := ⟨⟨ringNew bufferLen flags storage, []⟩, []⟩

theorem initial_invariant {storage : List B} (flags : Flags) (positive : 0 < bufferLen)
    (small : bufferLen + 1 < 2 ^ 31) (size : storage.length = bufferLen + 1) :
    Invariant bufferLen (initial bufferLen flags storage) := by
  have length : (u32 ((bufferLen : Int) + 1)).toNat = bufferLen + 1 := by
    rw [u32_eq (by omega) (by omega)]
    omega
  have ok : (ringNew bufferLen flags storage).Ok bufferLen :=
    ⟨length, positive, small, by rw [ringNew, length]; exact size,
      by simp only [ringNew, length]; omega, by simp only [ringNew, length]; omega⟩
  refine ⟨ok, by simp [initial], ?_⟩
  have empty : used (ringNew bufferLen flags storage) = 0 :=
    used_unique ok (by simp [ringNew]) (by rw [ok.length]; omega)
  simp [initial, copied, content, empty, window]

theorem enter_kept (r : Ring B) (a : Args B) :
    (enter r a).op = a.op ∧ (enter r a).flags = a.flags ∧ (enter r a).data = a.data ∧
      (enter r a).moved = [] := by
  rw [enter]
  cases a.op with
  | close => exact ⟨rfl, rfl, rfl, rfl⟩
  | read =>
    dsimp only
    repeat' split
    all_goals exact ⟨rfl, rfl, rfl, rfl⟩
  | write =>
    dsimp only
    repeat' split
    all_goals exact ⟨rfl, rfl, rfl, rfl⟩

theorem enter_ok (r : Ring B) (a : Args B) (plain : (enter r a).Plain) :
    (enter r a).Ok r.isDestroy ∧ (enter r a).Closes := by
  obtain ⟨op, flags, data, moved⟩ := enter_kept r a
  obtain ⟨noPeek, noReplace, small⟩ := plain
  have fields : (enter r a).need = i32 a.data.length ∧ (enter r a).peekSkip = 0 ∧
      (enter r a).already = 0 ∧ ∀ v, (enter r a).pc = .done v → v = 0 := by
    rw [op, flags] at noPeek
    rw [enter]
    cases kind : a.op with
    | close => exact ⟨rfl, rfl, rfl, nofun⟩
    | read =>
      simp only [noPeek kind, Bool.false_eq_true, if_false]
      split
      · exact ⟨rfl, rfl, rfl, fun v done => by cases done; rfl⟩
      · exact ⟨rfl, rfl, rfl, nofun⟩
    | write =>
      dsimp only
      repeat' split
      all_goals exact ⟨rfl, rfl, rfl, by simp [Call.ret]⟩
  obtain ⟨need, skip, already, ret⟩ := fields
  have count : (enter r a).moved.length = 0 := by rw [moved]; rfl
  refine ⟨⟨noPeek, noReplace, small, ?_, skip, ?_, ?_, ?_, fun v done => .inl ?_⟩, fun _ => moved⟩
  · rw [need, data]
    rw [data] at small
    exact i32_eq (by omega) (by omega)
  · rw [already, count]
    rfl
  · rw [count]
    exact Nat.zero_le _
  · rw [moved]
    rfl
  · rw [ret v done, count]
    rfl

theorem start_invariant {a : Args B} {g g' : Shared B} {ls : List (Call B)} {l : Call B}
    (inv : Invariant bufferLen ⟨g, ls⟩) (started : calls.start a g = some (g', l))
    (plain : Plain ⟨g', ls ++ [l]⟩) : Invariant bufferLen ⟨g', ls ++ [l]⟩ := by
  cases started
  refine ⟨inv.ring, ?_, inv.fifo⟩
  apply forall_start inv.calls _ fun _ ok => ok
  exact enter_ok g.ring a (plain _ (by simp))

/-- What a step copies is logged. -/
theorem step_moves {a : Answer} {g g' : Shared B} (ok : g.ring.Ok bufferLen)
    (call : c.Ok g.ring.isDestroy) (closes : c.Closes) (acted : step a g c = some (g', c')) :
    ∃ bytes, Moves bufferLen g.ring c g'.ring c' bytes ∧ g'.log = g.log ++ [(c.op, bytes)] := by
  rw [step] at acted
  cases resumed : resume a g.ring c with
  | none =>
    simp only [resumed, Option.bind_eq_bind, Option.bind_none] at acted
    contradiction
  | some next =>
    obtain ⟨ring, call'⟩ := next
    simp only [resumed, Option.bind_eq_bind, Option.bind_some, Option.some.injEq,
      Prod.mk.injEq] at acted
    obtain ⟨rfl, rfl⟩ := acted
    obtain ⟨bytes, moves⟩ := resume_moves a ok call closes resumed
    refine ⟨bytes, moves, ?_⟩
    rw [moves.moved, List.drop_left]

theorem step_invariant {a : Answer} {g g' : Shared B} {pre post : List (Call B)} {l l' : Call B}
    (inv : Invariant bufferLen ⟨g, pre ++ l :: post⟩)
    (acted : calls.step a g l = some (g', l')) : Invariant bufferLen ⟨g', pre ++ l' :: post⟩ := by
  obtain ⟨call, closes⟩ := inv.calls l (by simp)
  obtain ⟨bytes, moves, log⟩ := step_moves inv.ring call closes acted
  have passes := moves.passes
  have fifo := inv.fifo
  refine ⟨moves.ring, ?_, ?_⟩
  · refine forall_split inv.calls ⟨moves.call, fun close => ?_⟩
      fun x _ ok => ⟨ok.1.mono moves.closed, ok.2⟩
    rw [moves.op] at close
    rw [close] at passes
    rw [moves.moved, closes close, passes.1]
    rfl
  · simp only at fifo
    simp only [log, copied_append]
    cases op : l.op with
    | read =>
      rw [op] at passes
      simp only [reduceCtorEq, if_false, if_true, List.append_nil, List.append_assoc]
      rw [fifo, passes]
    | write =>
      rw [op] at passes
      simp only [reduceCtorEq, if_false, if_true, List.append_nil]
      rw [passes, fifo, List.append_assoc]
    | close =>
      rw [op] at passes
      simp only [reduceCtorEq, if_false, List.append_nil]
      rw [passes.2, fifo]

/-- The runs of plain calls. -/
abbrev Runs := (calls (B := B)).ReachesWithin Plain

theorem runs_invariant {s s' : Config (Shared B) (Call B)} (inv : Invariant bufferLen s)
    (run : Runs s s') : Invariant bufferLen s' :=
  Program.ReachesWithin.invariant inv (fun inv => start_invariant inv)
    (fun inv acted _ => step_invariant inv acted) run

/-- The ring is a bounded queue of bytes. -/
theorem ring_fifo {flags : Flags} {storage : List B} {s : Config (Shared B) (Call B)}
    (positive : 0 < bufferLen) (small : bufferLen + 1 < 2 ^ 31)
    (size : storage.length = bufferLen + 1) (run : Runs (initial bufferLen flags storage) s) :
    s.shared.ring.length = bufferLen + 1 ∧ s.shared.ring.cur < s.shared.ring.length ∧
      s.shared.ring.endAt < s.shared.ring.length ∧
      (content s.shared.ring).length = used s.shared.ring ∧ used s.shared.ring ≤ bufferLen ∧
      copied .read s.shared.log ++ content s.shared.ring = copied .write s.shared.log ∧
      (∀ call ∈ s.calls, call.data.take call.moved.length = call.moved ∧
        ∀ v, call.pc = .done v → v = call.moved.length ∨
          v = -1 ∧ call.moved = [] ∧ s.shared.ring.isDestroy = true) ∧
      ∀ call ∈ s.calls, ∀ now, (runSection now s.shared.ring call).isSome := by
  have inv := runs_invariant (initial_invariant flags positive small size) run
  have length := inv.ring.length
  have less := used_lt inv.ring
  refine ⟨length, inv.ring.cur, inv.ring.endAt, length_content inv.ring, by omega, inv.fifo.symm,
    fun call member => ?_, fun call member now => ?_⟩
  · obtain ⟨ok, _⟩ := inv.calls call member
    exact ⟨ok.copied, ok.ret⟩
  · obtain ⟨ok, closes⟩ := inv.calls call member
    obtain ⟨_, _, _, run, _⟩ := runSection_moves now inv.ring ok closes
    rw [run]
    rfl

section example_runs

def noFlags : Flags := ⟨false, false, false, false, false, false⟩

def starts (op : Op) (flags : Flags) (data : List Nat) : Args Nat ⊕ Nat × Answer :=
  .inl ⟨op, flags, data, 0, ⟨0, 0⟩, ⟨0, 0⟩⟩

/-- A turn of the call `i`, which a signal has woken if it slept. -/
def turn (i : Nat) : Args Nat ⊕ Nat × Answer := .inr (i, ⟨⟨0, 0⟩, .signal⟩)

/-- A write of four bytes to three cells waits for a read of two, and goes on around
the end of the storage. -/
def wrapSchedule : List (Args Nat ⊕ Nat × Answer) :=
  [starts .write { noFlags with waitall := true } [1, 2, 3, 4], turn 0,
    starts .read noFlags [0, 0], turn 1, turn 0]

theorem ring_fifo_wrap :
    ∃ s, calls.exec Plain wrapSchedule (initial 3 noFlags [0, 0, 0, 0]) = some s ∧
      copied .read s.shared.log ++ content s.shared.ring = [1, 2, 3, 4] := by
  have written : (calls.exec Plain wrapSchedule (initial 3 noFlags [0, 0, 0, 0])).map
      (fun s => copied .write s.shared.log) = some [1, 2, 3, 4] := by with_unfolding_all rfl
  obtain ⟨s, executed, written⟩ := Option.map_eq_some_iff.mp written
  have holds := ring_fifo (by decide) (by decide) rfl (Program.exec_reaches executed)
  exact ⟨s, executed, holds.2.2.2.2.2.1.trans written⟩

end example_runs
end MoonInWater.RingBuffer
