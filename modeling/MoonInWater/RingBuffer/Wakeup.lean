import MoonInWater.RingBuffer.Fifo

/-! Byte mode loses no wake-up: while the ring has what a sleeper of one side waits
for, one call of that side has been woken and has yet to run. -/
namespace MoonInWater.RingBuffer
open Threads
variable {B : Type} {bufferLen : Nat} {r r' : Ring B} {c c' : Call B}

namespace Cond
variable {c : Cond}

/-- The calls that wait, asleep or woken. -/
def waiting (c : Cond) : Nat := c.asleep + c.woken

/-- Nobody sleeps, or somebody has been woken. -/
def Served (c : Cond) : Prop := 0 < c.asleep → 0 < c.woken

theorem served_signal (c : Cond) : c.signal.Served := by
  rw [signal]
  split
  · intro some'
    omega
  · intro _
    exact Nat.succ_pos _

@[simp] theorem waiting_signal (c : Cond) : c.signal.waiting = c.waiting := by
  rw [signal]
  split
  · rfl
  · simp only [waiting]
    omega

@[simp] theorem waiting_broadcast (c : Cond) : c.broadcast.waiting = c.waiting := by
  simp only [broadcast, waiting]
  omega

@[simp] theorem waiting_wait (c : Cond) : c.wait.waiting = c.waiting + 1 := by
  simp only [wait, waiting]
  omega

theorem leave_waiting {wake : Wake} {next : Cond} (left : wake.leave c = some next) :
    c.waiting = next.waiting + 1 ∧ next.asleep ≤ c.asleep := by
  cases wake with
  | signal =>
    simp only [Wake.leave] at left
    split at left
    · contradiction
    · cases left
      simp only [waiting]
      omega
  | spurious | timedOut =>
    simp only [Wake.leave] at left
    split at left
    · contradiction
    · cases left
      simp only [waiting]
      omega

/-- A call whose time is up takes nothing from those that have been woken. -/
theorem leave_served {next : Cond} (left : Wake.timedOut.leave c = some next)
    (served : c.Served) : next.Served := by
  simp only [Wake.leave] at left
  split at left
  · contradiction
  · cases left
    intro _
    exact served (by omega)

end Cond

/-- The operation finds nothing to do: an empty ring to read, a full one to write. -/
def Blocked (bufferLen : Nat) (r : Ring B) : Op → Prop
  | .read => used r = 0
  | .write => used r = bufferLen
  | .close => True

/-- What a turn does to the condition variable on which its own side waits. -/
inductive Own (closed blocked : Prop) (own : Cond) : Cond → Pc → Prop
  | signal : Own closed blocked own own.signal (.done v)
  | kept : blocked ∨ closed → Own closed blocked own own (.done v)
  | wait : blocked → ¬ closed → Own closed blocked own own.wait .waiting

/-- The condition variables after a turn of `c`. -/
structure Wakes (bufferLen : Nat) (r : Ring B) (c : Call B) (r' : Ring B) (c' : Call B) :
    Prop where
  op : c'.op = c.op
  closed : r'.isDestroy = r.isDestroy
  own : Own (r.isDestroy = true) (Blocked bufferLen r' c.op) (r.cond c.op) (r'.cond c.op) c'.pc
  other : ∀ op, op ≠ .close → op ≠ c.op →
    r'.cond op = (r.cond op).signal ∨ r'.cond op = r.cond op ∧ used r' = used r

theorem Tail.own {closed : Bool} {blocked : Prop} {own next : Cond} {already : Int}
    (tail : Tail closed own can need already next pc) (full : can ≤ need → blocked) :
    Own (closed = true) blocked own next pc := by
  cases tail with
  | rest _ => exact .signal
  | all le => exact .kept (.inl (full le))
  | closed _ isClosed _ => exact .kept (.inr isClosed)
  | wait less opened => exact .wait (full (Int.le_of_lt less)) (by simp [opened])

/-- No message mode. -/
def Call.Bytes (c : Call B) : Prop := c.Plain ∧ (c.op ≠ .close → c.flags.msgmode = false)

instance (c : Call B) : Decidable c.Bytes := inferInstanceAs (Decidable (_ ∧ _))

theorem amount_bytes {flags : Flags} (bytes : flags.msgmode = false) (need can : Nat) :
    amount flags need can = min need can := by
  simp [amount, bytes]

theorem read_wakes (now : TimeVal) (ok : r.Ok bufferLen) (call : c.Ok r.isDestroy)
    (read : c.op = .read) (bytes : c.flags.msgmode = false)
    (run : readSection now r c = some (r', c')) : Wakes bufferLen r c r' c' := by
  obtain ⟨cond, pc, run', tail⟩ := readSection_eq now ok call read
  cases run.symm.trans run'
  rw [amount_bytes bytes] at *
  have taken := used_took ok (Nat.min_le_right (c.data.length - c.moved.length) (used r))
  have closed : (r.took (min (c.data.length - c.moved.length) (used r))).isDestroy =
      r.isDestroy := by
    rw [Ring.took]
    split <;> rfl
  refine ⟨rfl, closed, ?_, ?_⟩
  · rw [read]
    apply tail.own
    intro le
    change used (r.took _) = 0
    rw [taken]
    omega
  · intro op open' apart
    rw [read] at apart
    cases op with
    | read => contradiction
    | close => contradiction
    | write =>
      simp only [Ring.cond]
      by_cases none : min (c.data.length - c.moved.length) (used r) = 0
      · refine .inr ⟨?_, taken.trans (by rw [none, Nat.sub_zero])⟩
        rw [Ring.took, if_pos none]
      · rw [Ring.took, if_neg none]
        exact .inl rfl

theorem write_wakes (now : TimeVal) (ok : r.Ok bufferLen) (call : c.Ok r.isDestroy)
    (write : c.op = .write) (bytes : c.flags.msgmode = false)
    (run : writeSection now r c = some (r', c')) : Wakes bufferLen r c r' c' := by
  cases opened : r.isDestroy with
  | true =>
    rw [writeSection, if_pos opened] at run
    cases run
    refine ⟨rfl, rfl, ?_, fun _ _ _ => .inr ⟨rfl, rfl⟩⟩
    exact .kept (.inr opened)
  | false =>
    obtain ⟨buffer, cond, pc, wrote, run', tail⟩ := writeSection_eq now ok call write opened
    cases run.symm.trans run'
    rw [amount_bytes bytes] at *
    have less := used_lt ok
    have length := ok.length
    have put := used_put ok wrote (by omega)
    have closed : (r.put buffer (min (c.data.length - c.moved.length)
        (bufferLen - used r))).isDestroy = r.isDestroy := by
      rw [Ring.put]
      split <;> rfl
    refine ⟨rfl, closed, ?_, ?_⟩
    · rw [write]
      apply tail.own
      intro le
      change used (r.put buffer _) = bufferLen
      rw [put]
      omega
    · intro op open' apart
      rw [write] at apart
      cases op with
      | write => contradiction
      | close => contradiction
      | read =>
        simp only [Ring.cond]
        by_cases none : min (c.data.length - c.moved.length) (bufferLen - used r) = 0
        · refine .inr ⟨?_, put.trans (by rw [none, Nat.add_zero])⟩
          rw [Ring.put, if_pos none]
        · rw [Ring.put, if_neg none]
          exact .inl rfl

/-- The weight of a call that waits on the condition variable of `op`. -/
def waits (op : Op) (c : Call B) : Nat := if c.op = op ∧ c.pc = .waiting then 1 else 0

/-- The invariant of byte mode, for both condition variables. -/
structure Awake (bufferLen : Nat) (s : Config (Shared B) (Call B)) : Prop where
  bytes : Invariant bufferLen s
  waiting : ∀ op, op ≠ .close → s.total (waits op) = (s.shared.ring.cond op).waiting
  closes : ∀ call ∈ s.calls, call.op = .close → call.pc ≠ .waiting
  served : ∀ op, op ≠ .close → ¬ Blocked bufferLen s.shared.ring op →
    (s.shared.ring.cond op).Served
  closed : s.shared.ring.isDestroy = true → ∀ op, op ≠ .close → (s.shared.ring.cond op).asleep = 0

theorem Own.served {closed blocked : Prop} {own next : Cond}
    (after : Own closed blocked own next pc) (free : ¬ blocked) (gone : closed → own.asleep = 0) : next.Served := by
  cases after with
  | signal => exact own.served_signal
  | kept none =>
    intro some'
    have := gone (none.resolve_left free)
    omega
  | wait none _ => exact absurd none free

theorem Own.asleep {closed blocked : Prop} {own next : Cond}
    (after : Own closed blocked own next pc) (isClosed : closed) (gone : own.asleep = 0) : next.asleep = 0 := by
  cases after with
  | signal => simp [Cond.signal, gone]
  | kept _ => exact gone
  | wait _ opened => exact absurd isClosed opened

theorem Own.waiting {closed blocked : Prop} {own next : Cond}
    (after : Own closed blocked own next pc) :
    next.waiting = own.waiting + if pc = .waiting then 1 else 0 := by
  cases after with
  | signal => simp
  | kept _ => simp
  | wait _ _ => simp

/-- What a turn has to find on the ring for the condition variables to be in order
after it: those of the other sides are, and its own only if the ring is closed. -/
theorem Wakes.served (wakes : Wakes bufferLen r c r' c')
    (others : ∀ op, op ≠ .close → op ≠ c.op → ¬ Blocked bufferLen r op → (r.cond op).Served)
    (closed : r.isDestroy = true → ∀ op, op ≠ .close → (r.cond op).asleep = 0) (op : Op)
    (open' : op ≠ .close) :
    (¬ Blocked bufferLen r' op → (r'.cond op).Served) ∧
      (r'.isDestroy = true → (r'.cond op).asleep = 0) := by
  rw [wakes.closed]
  by_cases mine : op = c.op
  · subst mine
    exact ⟨fun free => wakes.own.served free fun isClosed => closed isClosed _ open',
      fun isClosed => wakes.own.asleep isClosed (closed isClosed _ open')⟩
  · rcases wakes.other op open' mine with signalled | ⟨kept, same⟩
    · rw [signalled]
      refine ⟨fun _ => Cond.served_signal _, fun isClosed => ?_⟩
      simp [Cond.signal, closed isClosed op open']
    · rw [kept]
      refine ⟨fun free => others op open' mine fun blocked => free ?_,
        fun isClosed => closed isClosed op open'⟩
      cases op with
      | read => exact same.trans blocked
      | write => exact same.trans blocked
      | close => contradiction

theorem cond_setCond (r : Ring B) {op op' : Op} (open' : op ≠ .close) (open'' : op' ≠ .close)
    (next : Cond) : (r.setCond op next).cond op' = if op' = op then next else r.cond op' := by
  cases op <;> cases op' <;> first | contradiction | rfl

theorem Wakes.waiting (wakes : Wakes bufferLen r c r' c') (op : Op) (open' : op ≠ .close) :
    (r'.cond op).waiting = waits op c' + (r.cond op).waiting := by
  by_cases mine : op = c.op
  · subst mine
    rw [wakes.own.waiting, waits, wakes.op, Nat.add_comm]
    simp
  · have none : waits op c' = 0 := by
      rw [waits, wakes.op]
      exact if_neg fun both => mine both.1.symm
    rw [none, Nat.zero_add]
    rcases wakes.other op open' mine with signalled | ⟨kept, _⟩
    · rw [signalled, Cond.waiting_signal]
    · rw [kept]

theorem runSection_wakes (now : TimeVal) (ok : r.Ok bufferLen) (call : c.Ok r.isDestroy)
    (open' : c.op ≠ .close) (bytes : c.flags.msgmode = false)
    (run : runSection now r c = some (r', c')) : Wakes bufferLen r c r' c' := by
  cases op : c.op with
  | close => contradiction
  | read =>
    simp only [runSection, op] at run
    exact read_wakes now ok call op bytes run
  | write =>
    simp only [runSection, op] at run
    exact write_wakes now ok call op bytes run

/-- After ring_close nobody sleeps. -/
theorem closeSection_cond (r : Ring B) (c : Call B) (op : Op) (open' : op ≠ .close)
    (closed : r.isDestroy = true → (r.cond op).asleep = 0) :
    ((closeSection r c).1.cond op).waiting = (r.cond op).waiting ∧
      ((closeSection r c).1.cond op).asleep = 0 := by
  rw [closeSection]
  by_cases isClosed : r.isDestroy = true
  · rw [if_pos isClosed]
    exact ⟨rfl, closed isClosed⟩
  · rw [if_neg isClosed]
    cases op with
    | close => contradiction
    | read => exact ⟨Cond.waiting_broadcast _, rfl⟩
    | write => exact ⟨Cond.waiting_broadcast _, rfl⟩

/-- A turn of a call on a ring whose condition variables are in order, but perhaps for
the one from which the call has come. -/
theorem turn_awake {now : TimeVal} {pre post : List (Call B)} {log : List (Op × List B)}
    (ok : r.Ok bufferLen) (call : c.Ok r.isDestroy)
    (bytes : c.op ≠ .close → c.flags.msgmode = false) (run : runSection now r c = some (r', c'))
    (waiting : ∀ op, op ≠ .close → others (waits op) pre post = (r.cond op).waiting)
    (after : Invariant bufferLen ⟨⟨r', log⟩, pre ++ c' :: post⟩)
    (noWait : ∀ call ∈ pre ++ post, call.op = .close → call.pc ≠ .waiting)
    (served : ∀ op, op ≠ .close → op ≠ c.op → ¬ Blocked bufferLen r op → (r.cond op).Served)
    (closed : r.isDestroy = true → ∀ op, op ≠ .close → (r.cond op).asleep = 0) :
    Awake bufferLen ⟨⟨r', log⟩, pre ++ c' :: post⟩ := by
  have closes : (c'.op = .close → c'.pc ≠ .waiting) →
      ∀ call ∈ pre ++ c' :: post, call.op = .close → call.pc ≠ .waiting := by
    intro here x member
    rcases List.mem_append.mp member with before | rest
    · exact noWait x (List.mem_append_left _ before)
    · rcases List.mem_cons.mp rest with rfl | behind
      · exact here
      · exact noWait x (List.mem_append_right _ behind)
  by_cases close : c.op = .close
  · simp only [runSection, close, Option.some.injEq] at run
    have ring : (closeSection r c).1 = r' := congrArg Prod.fst run
    have called : (closeSection r c).2 = c' := congrArg Prod.snd run
    have done : c'.pc = .done 0 := by
      rw [← called, closeSection]
      split <;> rfl
    have conds := fun op open' => closeSection_cond r c op open' fun isClosed =>
      closed isClosed op open'
    rw [ring] at conds
    refine ⟨after, fun op open' => ?_, closes fun _ => by simp [done], fun op open' _ => ?_,
      fun _ op open' => (conds op open').2⟩
    · rw [total_split, waiting op open', (conds op open').1]
      simp [waits, done]
    · intro some'
      have := (conds op open').2
      simp only at some'
      omega
  · have wakes := runSection_wakes now ok call close (bytes close) run
    refine ⟨after, fun op open' => ?_, closes fun same => absurd (wakes.op.symm.trans same) close,
      fun op open' => (wakes.served served closed op open').1,
      fun isClosed op open' => (wakes.served served closed op open').2 isClosed⟩
    rw [total_split, waiting op open', wakes.waiting op open']

def Bytes (s : Config (Shared B) (Call B)) : Prop := ∀ call ∈ s.calls, call.Bytes

instance : DecidablePred (Bytes (B := B)) := fun _ => List.decidableBAll ..

/-- The runs of calls in byte mode. -/
abbrev ByteRuns := (calls (B := B)).ReachesWithin Bytes

theorem step_awake {a : Answer} {g g' : Shared B} {pre post : List (Call B)} {l l' : Call B}
    (inv : Awake bufferLen ⟨g, pre ++ l :: post⟩) (acted : calls.step a g l = some (g', l'))
    (bytes : l'.op ≠ .close → l'.flags.msgmode = false) :
    Awake bufferLen ⟨g', pre ++ l' :: post⟩ := by
  obtain ⟨call, closes⟩ := inv.bytes.calls l (by simp)
  have after := step_invariant inv.bytes acted
  obtain ⟨_, moves, _⟩ := step_moves inv.bytes.ring call closes acted
  rw [moves.op, moves.flags] at bytes
  have waiting := inv.waiting
  simp only [total_split] at waiting
  have noWait : ∀ call ∈ pre ++ post, call.op = .close → call.pc ≠ .waiting := by
    intro x member
    apply inv.closes x
    rcases List.mem_append.mp member with before | behind
    · simp [before]
    · simp [behind]
  simp only [calls, step] at acted
  cases resumed : resume a g.ring l with
  | none =>
    simp only [resumed, Option.bind_eq_bind, Option.bind_none] at acted
    contradiction
  | some next =>
    obtain ⟨ring, call'⟩ := next
    simp only [resumed, Option.bind_eq_bind, Option.bind_some, Option.some.injEq,
      Prod.mk.injEq] at acted
    obtain ⟨rfl, rfl⟩ := acted
    cases pc : l.pc with
    | done _ =>
      simp only [resume, pc] at resumed
      contradiction
    | entry =>
      simp only [resume, pc] at resumed
      apply turn_awake inv.bytes.ring call bytes resumed _ after noWait
        (fun op open' _ => inv.served op open') inv.closed
      intro op open'
      have sum := waiting op open'
      rwa [waits, pc, if_neg (by simp), Nat.zero_add] at sum
    | waiting =>
      simp only [resume, pc] at resumed
      have open' : l.op ≠ .close := fun close => inv.closes l (by simp) close pc
      cases left : a.wake.leave (g.ring.cond l.op) with
      | none =>
        simp only [left, Option.bind_eq_bind, Option.bind_none] at resumed
        contradiction
      | some next =>
        simp only [left, Option.bind_eq_bind, Option.bind_some] at resumed
        obtain ⟨fewer, less⟩ := Cond.leave_waiting left
        have here := fun {op : Op} (other : op ≠ .close) => cond_setCond g.ring open' other next
        have waiting' : ∀ op, op ≠ .close →
            others (waits op) pre post = ((g.ring.setCond l.op next).cond op).waiting := by
          intro op other
          have sum := waiting op other
          rw [here other]
          by_cases mine : op = l.op
          · subst mine
            rw [waits, if_pos ⟨rfl, pc⟩] at sum
            rw [if_pos rfl]
            omega
          · rw [waits, if_neg fun both => mine both.1.symm, Nat.zero_add] at sum
            rwa [if_neg mine]
        have closed' : (g.ring.setCond l.op next).isDestroy = true →
            ∀ op, op ≠ .close → ((g.ring.setCond l.op next).cond op).asleep = 0 := by
          intro isClosed op other
          rw [isDestroy_setCond] at isClosed
          rw [here other]
          by_cases mine : op = l.op
          · subst mine
            have none := inv.closed isClosed l.op other
            simp only at none
            rw [if_pos rfl]
            omega
          · rw [if_neg mine]
            exact inv.closed isClosed op other
        have blocked : ∀ op, Blocked bufferLen (g.ring.setCond l.op next) op ↔
            Blocked bufferLen g.ring op := by
          intro op
          cases l.op <;> cases op <;> rfl
        have served' : ∀ op, op ≠ .close → op ≠ l.op →
            ¬ Blocked bufferLen (g.ring.setCond l.op next) op →
              ((g.ring.setCond l.op next).cond op).Served := by
          intro op other apart free
          rw [blocked] at free
          rw [here other, if_neg apart]
          exact inv.served op other free
        by_cases late : a.wake = .timedOut
        · rw [if_pos late] at resumed
          rw [late] at left
          split at resumed
          · have returned : (if l.op = .read then readOver (g.ring.setCond l.op next) l
                else (g.ring.setCond l.op next, l.ret l.already)) =
                (g.ring.setCond l.op next, l.ret l.already) := by
              split
              · rename_i read
                simp [readOver, call.noPeek read]
              · rfl
            rw [returned] at resumed
            cases resumed
            refine ⟨after, fun op other => ?_, ?_, fun op other free => ?_, closed'⟩
            · rw [total_split, waiting' op other]
              simp [waits, Call.ret]
            · intro x member
              rcases List.mem_append.mp member with before | rest
              · exact noWait x (List.mem_append_left _ before)
              · rcases List.mem_cons.mp rest with rfl | behind
                · exact fun close => absurd close open'
                · exact noWait x (List.mem_append_right _ behind)
            · by_cases mine : op = l.op
              · subst mine
                simp only at free
                rw [blocked] at free
                simp only
                rw [here other, if_pos rfl]
                exact Cond.leave_served left (inv.served l.op other free)
              · exact served' op other mine free
          · contradiction
        · rw [if_neg late] at resumed
          have call' : l.Ok (g.ring.setCond l.op next).isDestroy := by
            rw [isDestroy_setCond]
            exact call
          exact turn_awake (inv.bytes.ring.setCond l.op next) call' bytes resumed waiting' after
            noWait served' closed'

theorem initial_awake {flags : Flags} {storage : List B} (positive : 0 < bufferLen)
    (small : bufferLen + 1 < 2 ^ 31) (size : storage.length = bufferLen + 1) :
    Awake bufferLen (initial bufferLen flags storage) := by
  refine ⟨initial_invariant flags positive small size, fun op open' => ?_, by simp [initial],
    fun op open' _ => ?_, fun isClosed => by simp [initial, ringNew] at isClosed⟩
  · cases op <;> first | contradiction | rfl
  · cases op <;> first | contradiction | exact fun some' => some'

theorem start_awake {a : Args B} {g g' : Shared B} {ls : List (Call B)} {l : Call B}
    (inv : Awake bufferLen ⟨g, ls⟩) (started : calls.start a g = some (g', l))
    (ok : ∀ call ∈ ls ++ [l], call.Bytes) : Awake bufferLen ⟨g', ls ++ [l]⟩ := by
  have after := start_invariant inv.bytes started fun call member => (ok call member).1
  cases started
  have awake : (enter g.ring a).pc ≠ .waiting := by
    rw [enter]
    cases a.op with
    | close => simp
    | read =>
      dsimp only
      repeat' split
      all_goals simp [Call.ret]
    | write =>
      dsimp only
      repeat' split
      all_goals simp [Call.ret]
  refine ⟨after, fun op open' => ?_, ?_, inv.served, inv.closed⟩
  · have total := inv.waiting op open'
    simpa [waits, awake, Config.total] using total
  · exact forall_start inv.closes (fun _ => awake) fun _ kept => kept

/-- No wake-up is lost in byte mode. The calls that wait on a condition variable are
the sleepers and those that have been woken and have not run yet. -/
theorem ring_wakeups {flags : Flags} {storage : List B} {s : Config (Shared B) (Call B)}
    (positive : 0 < bufferLen) (small : bufferLen + 1 < 2 ^ 31)
    (size : storage.length = bufferLen + 1) (run : ByteRuns (initial bufferLen flags storage) s) :
    (∀ op, op ≠ .close → s.total (waits op) =
        (s.shared.ring.cond op).asleep + (s.shared.ring.cond op).woken) ∧
      (0 < (content s.shared.ring).length → 0 < s.shared.ring.conReader.asleep →
        0 < s.shared.ring.conReader.woken) ∧
      ((content s.shared.ring).length < bufferLen → 0 < s.shared.ring.conWriter.asleep →
        0 < s.shared.ring.conWriter.woken) ∧
      (s.shared.ring.isDestroy = true →
        s.shared.ring.conReader.asleep = 0 ∧ s.shared.ring.conWriter.asleep = 0) := by
  have inv : Awake bufferLen s :=
    Program.ReachesWithin.invariant (initial_awake positive small size)
      (fun inv started ok => start_awake inv started ok)
      (fun inv acted ok => step_awake inv acted (ok _ (by simp)).2) run
  rw [length_content inv.bytes.ring]
  refine ⟨inv.waiting, fun some' => inv.served .read (by simp) ?_,
    fun free => inv.served .write (by simp) ?_,
    fun isClosed => ⟨inv.closed isClosed .read (by simp), inv.closed isClosed .write (by simp)⟩⟩
  · exact Nat.ne_of_gt some'
  · exact Nat.ne_of_lt free

/-- Two readers sleep, and a write of one byte wakes one of them. -/
def wakeSchedule : List (Args Nat ⊕ Nat × Answer) :=
  [starts .read noFlags [0], turn 0, starts .read noFlags [0], turn 1,
    starts .write noFlags [7], turn 2]

theorem ring_wakeups_two :
    ∃ s, calls.exec Bytes wakeSchedule (initial 3 noFlags [0, 0, 0, 0]) = some s ∧
      s.shared.ring.conReader.asleep = 1 ∧ 0 < s.shared.ring.conReader.woken := by
  have left : (calls.exec Bytes wakeSchedule (initial 3 noFlags [0, 0, 0, 0])).map
      (fun s => ((content s.shared.ring).length, s.shared.ring.conReader.asleep)) =
        some (1, 1) := by with_unfolding_all rfl
  obtain ⟨s, executed, both⟩ := Option.map_eq_some_iff.mp left
  have one : (content s.shared.ring).length = 1 := congrArg Prod.fst both
  have asleep : s.shared.ring.conReader.asleep = 1 := congrArg Prod.snd both
  have holds := ring_wakeups (by decide) (by decide) rfl (Program.exec_reaches executed)
  exact ⟨s, executed, asleep, holds.2.1 (by omega) (by omega)⟩

end MoonInWater.RingBuffer
