import MoonInWater.Common.PipeStep

/-! The life cycle of a pipe over all interleavings of its calls. -/
namespace MoonInWater.Pipe
open CInt Threads RefWord

/-- The close action has not begun, one call is running it, or it has run. -/
structure Invariant (isTwoWay : Bool) (c : Config Shared Call) : Prop where
  calls : ∀ call ∈ c.calls, call.Ok isTwoWay c.shared
  closings : ∀ call ∈ c.calls, call.Closing c.shared
  settled : Settled Closed c.shared.status (users c) (closeRuns c.shared + c.total Call.closing)
  mutex : Settled UseingRef.Closed c.shared.mutexStatus (c.total Call.mutexUseing)
    (destroys c.shared + c.total Call.deleting)
  between : c.total Call.closing = 0 → closeEvents c.shared = [] ∨ CloseDone c.shared
  mask : Closed c.shared.status → ∃ p, closedMask c.shared.status = Point.closedBit p
  ready : Ready c.shared.status → Opened isTwoWay c.shared
  unlocked : UseingRef.Closed c.shared.mutexStatus → .initUnlock ∈ c.shared.log

theorem initial_invariant (isTwoWay : Bool) : Invariant isTwoWay (initial isTwoWay) where
  calls := by simp [initial]
  closings := by simp [initial]
  settled := by
    have room : 1 < 2 ^ 27 := by decide
    cases isTwoWay <;>
      exact ⟨⟨by decide +kernel, room⟩, fun closed => absurd closed (by decide +kernel),
        fun _ => rfl⟩
  mutex := by
    have room : 0 < 2 ^ 27 := by decide
    cases isTwoWay <;>
      exact ⟨⟨by decide +kernel, room⟩, fun closed => absurd closed (by decide +kernel),
        fun _ => rfl⟩
  between _ := .inl rfl
  mask := by cases isTwoWay <;> exact fun closed => absurd closed (by decide +kernel)
  ready := by
    cases isTwoWay with
    | false => exact fun _ two => Bool.noConfusion two
    | true => exact fun set => absurd set (by decide +kernel)
  unlocked := by cases isTwoWay <;> exact fun closed => absurd closed (by decide +kernel)

/-- The runs in which the 27-bit count of users never overflows. -/
abbrev Runs := protocol.ReachesWithin (fun c => users c < 2 ^ 27)

theorem Call.Closing.mono {call : Call} (closing : call.Closing g)
    (mask : Closed g.status → closedMask g'.status = closedMask g.status)
    (events : closeEvents g' = closeEvents g) : call.Closing g' := by
  have marks : ∀ {q : Point}, closedMask g.status = q.closedBit →
      closedMask g'.status = q.closedBit := by
    intro q marked
    refine (mask ?_).trans marked
    rw [Closed, marked]
    cases q <;> decide
  simp only [Call.Closing, events] at closing ⊢
  split at closing
  · exact ⟨marks closing.1, closing.2⟩
  · exact closing.imp fun _ part => ⟨marks part.1, part.2⟩
  · exact closing.imp fun _ part => ⟨marks part.1, part.2⟩
  · trivial

theorem CloseDone.mono (done : CloseDone g)
    (mask : Closed g.status → closedMask g'.status = closedMask g.status)
    (events : closeEvents g' = closeEvents g) : CloseDone g' := by
  obtain ⟨p, q, marked, parts⟩ := done
  refine ⟨p, q, (mask ?_).trans marked, events.trans parts⟩
  rw [Closed, marked]
  cases q <;> decide

theorem CloseDone.runs (done : CloseDone g) : closeRuns g = 1 := by
  obtain ⟨_, _, _, parts⟩ := done
  simp [closeRuns, parts]

/-- Nothing of the close action has run while no call is running it. -/
theorem Invariant.quiet (inv : Invariant isTwoWay c)
    (none : closeRuns c.shared + c.total Call.closing = 0) : closeEvents c.shared = [] := by
  rcases inv.between (by omega) with quiet | done
  · exact quiet
  · have one := done.runs
    omega

/-- A user keeps the close action away. -/
theorem Invariant.quiet_of_users (inv : Invariant isTwoWay c) (user : 0 < users c) :
    closeEvents c.shared = [] :=
  inv.quiet (inv.settled.early fun unused => by omega)

theorem closing_le (call : Call) : call.closing ≤ 1 := by
  simp only [Call.closing]
  split <;> omega

theorem start_frame (isTwoWay : Bool) (started : start e g = some (g', call)) :
    g.log <+: g'.log ∧ g'.status = g.status ∧ g'.mutexStatus = g.mutexStatus ∧
      closeEvents g' = closeEvents g ∧ destroys g' = destroys g ∧
      call.useing + (if g'.initCalled then 0 else 1) = (if g.initCalled then 0 else 1) ∧
      call.closing = 0 ∧ call.mutexUseing = 0 ∧ call.deleting = 0 ∧ call.Ok isTwoWay g' := by
  obtain ⟨kind, point⟩ := e
  cases kind with
  | getOtherPointRef | close =>
    cases started
    exact ⟨List.prefix_rfl, rfl, rfl, rfl, rfl, Nat.zero_add _, rfl, rfl, rfl, trivial,
      by simp [Pc.result], by simp⟩
  | initDone isFail =>
    simp only [start] at started
    split at started
    · contradiction
    · cases started
      refine ⟨List.prefix_append _ _, rfl, rfl, ?_, ?_, ?_, ?_, ?_, ?_, ?_⟩
      · exact (closeEvents_emit _ _).trans (List.append_nil _)
      · exact destroys_emit _ (by simp)
      · cases isFail <;> simp_all [Call.useing, Shared.emit]
      · cases isFail <;> rfl
      · cases isFail <;> rfl
      · cases isFail <;> rfl
      · cases isFail with
        | true => exact ⟨trivial, by simp [Pc.result], by simp⟩
        | false => exact ⟨by simp [Pc.At, Shared.emit], by simp [Pc.result], by simp⟩

theorem start_invariant (inv : Invariant isTwoWay ⟨g, ls⟩)
    (started : protocol.start e g = some (g', call)) : Invariant isTwoWay ⟨g', ls ++ [call]⟩ := by
  obtain ⟨grows, status, mutexStatus, events, destroyed, useing, idle, noRef, noDel, ok⟩ :=
    start_frame isTwoWay started
  have mask : closedMask g'.status = closedMask g.status := by rw [status]
  have runs : closeRuns g' = closeRuns g := by rw [closeRuns, events, closeRuns]
  obtain ⟨calls, closings, settled, mutex, between, masks, ready, unlocked⟩ := inv
  constructor
  · exact forall_start calls ok fun _ ok => ok.mono grows
  · exact forall_start closings (Call.Closing.of_idle idle)
      fun _ closing => Call.Closing.mono closing (fun _ => mask) events
  · simp only [users, total_start _ g' g, idle, status, runs, Nat.add_assoc, useing,
      Nat.add_zero] at settled ⊢
    exact settled
  · simp only [total_start _ g' g, noRef, noDel, mutexStatus, destroyed, Nat.add_zero] at mutex ⊢
    exact mutex
  · intro none
    simp only [total_start _ g' g, idle, Nat.add_zero] at none
    exact (between none).imp (events.trans ·) fun done => done.mono (fun _ => mask) events
  · simpa only [status] using masks
  · exact fun set => (ready (by rwa [status] at set)).mono grows
  · exact fun closed => grows.subset (unlocked (by rwa [mutexStatus] at closed))

theorem step_initCalled (acted : step () g call = some (g', call')) :
    g'.initCalled = g.initCalled := by
  obtain ⟨kind, point, pc, incAt⟩ := call
  cases pc with
  | done => contradiction
  | useingSwap | lock | closeSwap | initSwap =>
    simp only [step] at acted
    split at acted <;> cases acted <;> rfl
  | _ =>
    cases acted
    rfl

theorem mutexUseing_le (call : Call) : call.mutexUseing ≤ call.useing := by
  obtain ⟨kind, point, pc, incAt⟩ := call
  cases pc with
  | mutexRef pc => cases pc <;> simp [Call.mutexUseing, Call.useing]
  | _ => simp [Call.mutexUseing, Call.useing]

theorem step_invariant (inv : Invariant isTwoWay ⟨g, pre ++ call :: post⟩)
    (acted : protocol.step a g call = some (g', call'))
    (room : users ⟨g', pre ++ call' :: post⟩ < 2 ^ 27) :
    Invariant isTwoWay ⟨g', pre ++ call' :: post⟩ := by
  have ok := inv.calls call (by simp)
  have closing := inv.closings call (by simp)
  have quiet : 0 < call.useing → closeEvents g = [] := fun user =>
    inv.quiet_of_users (by simp only [users, total_split]; omega)
  have idle := inv.quiet
  obtain ⟨calls, closings, settled, mutex, between, mask, ready, unlocked⟩ := inv
  have grows := step_grows acted
  have masks := step_mask ok acted
  have maskStays : Closed g.status → closedMask g'.status = closedMask g.status := fun closed =>
    masks.resolve_right fun changed => changed.1 closed
  simp only [users, total_split, step_initCalled acted, Nat.add_assoc]
    at settled mutex room between idle
  have fewer := others_mono pre post mutexUseing_le
  have fewer' := mutexUseing_le call'
  obtain ⟨settled', _⟩ := (step_status ok closing acted).settled closed_shift settled room
  obtain ⟨mutex', _⟩ := (step_mutex ok acted).settled UseingRef.closed_shift mutex
    (by simp only [mutexView]; omega)
  have most := settled'.calls_le
  have once := closing_le call
  simp only [statusView] at settled' most
  have first : call.closing = 0 → call'.closing = 1 → closeEvents g = [] := by
    intro none one
    have same := step_quiet none acted
    have runs : closeRuns g' = closeRuns g := by rw [closeRuns, same, closeRuns]
    exact idle (by omega)
  obtain ⟨closing', done⟩ := step_closing ok closing mask first acted
  constructor
  · exact forall_split calls (step_ok ok ready quiet acted) fun _ _ ok => ok.mono grows
  · refine forall_split closings closing' fun x member other => ?_
    have part : x.closing ≤ others Call.closing pre post := weight_le_others member
    by_cases none : call.closing = 0
    · exact Call.Closing.mono other maskStays (step_quiet none acted)
    · have before := settled.calls_le
      exact Call.Closing.of_idle (by omega)
  · simp only [users, total_split, step_initCalled acted, Nat.add_assoc]
    exact settled'
  · simp only [total_split]
    exact mutex'
  · intro idle'
    simp only [total_split] at idle'
    by_cases none : call.closing = 0
    · have events := step_quiet none acted
      exact (between (by omega)).imp (events.trans ·) fun done => done.mono maskStays events
    · exact .inr (done (by omega) (by omega))
  · intro closed
    rcases masks with same | ⟨_, marked⟩
    · rw [Closed, same] at closed
      exact (mask closed).imp fun _ marked => same.trans marked
    · exact marked
  · exact step_ready ok ready acted
  · exact step_unlocked ok unlocked acted

theorem runs_invariant (run : Runs (initial isTwoWay) c) : Invariant isTwoWay c :=
  Program.ReachesWithin.invariant (initial_invariant isTwoWay)
    (fun inv started _ => start_invariant inv started)
    (fun inv acted room => step_invariant inv acted room) run

theorem exists_closing (busy : c.total Call.closing ≠ 0) :
    ∃ call ∈ Config.calls (G := Shared) c, call.closing = 1 := by
  obtain ⟨call, member, some⟩ := exists_of_total_pos (Nat.pos_of_ne_zero busy)
  have once := closing_le call
  exact ⟨call, member, by omega⟩

/-- Whatever has run of the close action is the beginning of one close action. -/
theorem Invariant.closes_once (inv : Invariant isTwoWay c) :
    ∃ p q, closeEvents c.shared <+: [.listenerClose q, .gcDec p, .gcDec p.other] := by
  by_cases idle : c.total Call.closing = 0
  · rcases inv.between idle with none | ⟨p, q, _, parts⟩
    · exact ⟨.p0, .p0, none ▸ List.nil_prefix⟩
    · exact ⟨p, q, parts ▸ List.prefix_rfl⟩
  · obtain ⟨call, member, closing⟩ := exists_closing idle
    have parts := inv.closings call member
    obtain ⟨kind, p, pc, incAt⟩ := call
    cases pc with
    | listener q => exact ⟨p, q, parts.2 ▸ List.nil_prefix⟩
    | gcDec0 =>
      obtain ⟨q, _, sofar⟩ := parts
      exact ⟨p, q, sofar ▸ List.prefix_append [Event.listenerClose q] _⟩
    | gcDec1 =>
      obtain ⟨q, _, sofar⟩ := parts
      exact ⟨p, q, sofar ▸ List.prefix_append [Event.listenerClose q, .gcDec p] _⟩
    | _ => contradiction

/-- A close action runs on a closed pipe without users. -/
theorem Invariant.closes_unused (inv : Invariant isTwoWay c)
    (ran : closeEvents c.shared ≠ [] ∨ ∃ call ∈ c.calls, call.closing = 1) :
    Closed c.shared.status ∧ users c = 0 := by
  apply inv.settled.unused
  rcases ran with some | ⟨call, member, closing⟩
  · by_contra none
    exact some (inv.quiet (by omega))
  · have part : call.closing ≤ c.total Call.closing := weight_le_total member
    omega

/-- It has run, or a call is running it, once the pipe is closed and unused. -/
theorem Invariant.closes_due (inv : Invariant isTwoWay c) (closed : Closed c.shared.status)
    (unused : users c = 0) : CloseDone c.shared ∨ ∃ call ∈ c.calls, call.closing = 1 := by
  have due := inv.settled.due closed unused
  by_cases idle : c.total Call.closing = 0
  · rcases inv.between idle with none | done
    · simp [closeRuns, none, idle] at due
    · exact .inl done
  · exact .inr (exists_closing idle)

/-- The listener that is told is that of the end that was not closed. -/
theorem Invariant.told_open_end (inv : Invariant isTwoWay c) {q : Point}
    (told : .listenerClose q ∈ c.shared.log) :
    closedMask c.shared.status = q.other.closedBit := by
  have event : .listenerClose q ∈ closeEvents c.shared :=
    List.mem_filter.mpr ⟨told, rfl⟩
  by_cases idle : c.total Call.closing = 0
  · rcases inv.between idle with none | ⟨p, q', marked, parts⟩
    · simp [none] at event
    · have same : q = q' := by simpa [parts] using event
      exact same ▸ marked
  · obtain ⟨call, member, closing⟩ := exists_closing idle
    have parts := inv.closings call member
    obtain ⟨kind, p, pc, incAt⟩ := call
    cases pc with
    | listener => simp [parts.2] at event
    | gcDec0 | gcDec1 =>
      obtain ⟨q', marked, sofar⟩ := parts
      have same : q = q' := by simpa [sofar] using event
      exact same ▸ marked
    | _ => contradiction

theorem Invariant.mutex_destroyed (inv : Invariant isTwoWay c)
    (destroyed : .mutexDestroy ∈ c.shared.log) :
    .initUnlock ∈ c.shared.log ∧ ∀ call ∈ c.calls, call.pc ≠ .lock ∧ call.pc ≠ .unlock := by
  have some : 0 < destroys c.shared := List.count_pos_iff.mpr destroyed
  obtain ⟨closed, none⟩ := inv.mutex.unused (by omega)
  refine ⟨inv.unlocked closed, fun call member => ?_⟩
  have zero := weight_zero none member
  constructor
  · intro locking
    simp [Call.mutexUseing, locking] at zero
  · intro unlocking
    simp [Call.mutexUseing, unlocking] at zero

/-- The life cycle of a pipe. The close action runs at most once, on a closed pipe
without users, telling the end that did not close and releasing both ends, and
it has run (or is being run) as soon as the pipe is so. A call that returns 0
took its reference of the other end before the action released that end, and on
a two-way pipe after a successful pipe_init_done. The mutex is destroyed at most
once, after pipe_init_done unlocked it, with no caller at its lock. -/
theorem pipe_life_cycle (run : Runs (initial isTwoWay) c) :
    c.shared.status / 16 = users c ∧
      (∃ p q, closeEvents c.shared <+: [.listenerClose q, .gcDec p, .gcDec p.other]) ∧
      (closeEvents c.shared ≠ [] ∨ (∃ call ∈ c.calls, call.closing = 1) →
        Closed c.shared.status ∧ users c = 0) ∧
      (Closed c.shared.status → users c = 0 →
        CloseDone c.shared ∨ ∃ call ∈ c.calls, call.closing = 1) ∧
      (∀ q, .listenerClose q ∈ c.shared.log →
        closedMask c.shared.status = Point.closedBit q.other) ∧
      (∀ call ∈ c.calls, call.pc = .done (some 0) →
        (∃ i, call.incAt = some i ∧ c.shared.log[i]? = some (.gcInc call.point.other) ∧
          ∀ j, c.shared.log[j]? = some (.gcDec call.point.other) → i < j) ∧
        (isTwoWay = true → .init false ∈ c.shared.log)) ∧
      c.shared.log.count .mutexDestroy ≤ 1 ∧
      (.mutexDestroy ∈ c.shared.log → .initUnlock ∈ c.shared.log ∧
        ∀ call ∈ c.calls, call.pc ≠ .lock ∧ call.pc ≠ .unlock) := by
  have inv := runs_invariant run
  refine ⟨inv.settled.counts.1, inv.closes_once, inv.closes_unused, inv.closes_due,
    fun q => inv.told_open_end, ?_, ?_, inv.mutex_destroyed⟩
  · intro call member returned
    have ok := inv.calls call member
    obtain ⟨opened, inced⟩ := ok.granted (by rw [returned]; rfl)
    obtain ⟨i, here⟩ := Option.isSome_iff_exists.mp inced
    exact ⟨⟨i, here, ok.order i here⟩, opened⟩
  · have once := inv.mutex.calls_le
    exact Nat.le_trans (Nat.le_add_right _ _) once

/-- Calls 0, 1 and 2 are a get, the init and a close. -/
def twoWaySchedule : List ((Kind × Point) ⊕ Nat × Unit) :=
  List.flatten [[.inl (.getOtherPointRef, .p0), .inl (.initDone false, .p1)],
    Program.turns 0 5 (), Program.turns 1 5 (), Program.turns 0 3 (), Program.turns 1 4 (),
    Program.turns 0 5 (), [.inl (.close, .p1)], Program.turns 2 5 ()]

/-- A two-way pipe: one end waits for the init, is told the other end, and the
other end closes. -/
theorem pipe_life_cycle_two_way :
    let c : Config Shared Call :=
      ⟨⟨13, 15, 2, false, true, [.init false, .initUnlock, .mutexDestroy, .gcInc .p1,
        .listenerClose .p0, .gcDec .p1, .gcDec .p0]⟩,
        [⟨.getOtherPointRef, .p0, .done (some 0), some 3⟩,
          ⟨.initDone false, .p1, .done none, none⟩, ⟨.close, .p1, .done none, none⟩]⟩
    c.shared.status / 16 = users c ∧ .init false ∈ c.shared.log := by
  intro c
  have executed : protocol.exec (fun c => users c < 2 ^ 27) twoWaySchedule (initial true) =
      some c := by
    with_unfolding_all rfl
  have run : Runs (initial true) c := Program.exec_reaches executed
  have holds := pipe_life_cycle run
  exact ⟨holds.1, (holds.2.2.2.2.2.1 _ (List.mem_cons_self ..) rfl).2 rfl⟩

/-- A pipe_get_other_point_ref that has its using reference. -/
def getting : Call := ⟨.getOtherPointRef, .p0, .ready, none⟩

/-- One more caller takes a using reference of a one-way pipe. -/
theorem get_reaches {g : Shared} (run : protocol.Reaches c ⟨g, List.replicate n getting⟩)
    (opened : ¬ Closed g.status) (next : i32 (g.status + 16) = status) :
    protocol.Reaches c ⟨{ g with status := status }, List.replicate (n + 1) getting⟩ := by
  have started : protocol.start (.getOtherPointRef, .p0) g =
      some (g, ⟨.getOtherPointRef, .p0, .useingInc, none⟩) := rfl
  have read : protocol.step () g ⟨.getOtherPointRef, .p0, .useingInc, none⟩ =
      some (g, ⟨.getOtherPointRef, .p0, .useingSwap g.status, none⟩) := by
    simp [protocol, step, opened, Call.goto]
  have swapped : protocol.step () g ⟨.getOtherPointRef, .p0, .useingSwap g.status, none⟩ =
      some ({ g with status := status }, getting) := by
    simp [protocol, step, Call.goto, getting, pipeUseingRefUnit, next]
  rw [List.replicate_succ']
  exact ((run.tail (.start started)).tail (.step read)).tail (.step swapped)

theorem gets_reach (n : Nat) :
    protocol.Reaches (initial false)
      ⟨{ pipeNew false with status := i32 (16 * n + 25) }, List.replicate n getting⟩ := by
  induction n with
  | zero =>
    have made : i32 (pipeStatusReady + pipeUseingRefUnit) = pipeStatusReady + pipeUseingRefUnit :=
      i32_eq (by decide) (by decide)
    have same : i32 (16 * (0 : Nat) + 25) = (pipeNew false).status := by
      change _ = setBit (i32 (pipeStatusReady + pipeUseingRefUnit)) 3
      rw [made, i32_eq (by decide) (by decide)]
      decide
    rw [same]
    exact .refl
  | succ n ih =>
    have opened : ¬ Closed (i32 (16 * n + 25)) := by
      simp only [Closed, closedMask, i32]
      omega
    have sum : i32 (i32 (16 * n + 25) + 16) = i32 (16 * (n + 1 : Nat) + 25) := by
      simp only [i32]
      omega
    have more := get_reaches ih opened sum
    exact more

/-- pipe_close on an open word below the unit runs the close action. -/
theorem close_reaches {g : Shared} (run : protocol.Reaches c ⟨g, ls⟩)
    (opened : ¬ Closed g.status) (small : g.status < 16) :
    protocol.Reaches c
      ⟨{ g with status := setBit g.status 1 }.emit (.listenerClose .p1),
        ls ++ [⟨.close, .p0, .gcDec0 (.ret none), none⟩]⟩ := by
  have started : protocol.start (.close, .p0) g =
      some (g, ⟨.close, .p0, .close (.ret none), none⟩) := rfl
  have read : protocol.step () g ⟨.close, .p0, .close (.ret none), none⟩ =
      some (g, ⟨.close, .p0, .closeSwap g.status (.ret none), none⟩) := by
    simp [protocol, step, opened, Call.goto]
  have marked : protocol.step () g ⟨.close, .p0, .closeSwap g.status (.ret none), none⟩ =
      some ({ g with status := setBit g.status 1 },
        ⟨.close, .p0, .listener .p1 (.ret none), none⟩) := by
    simp [protocol, step, small, Call.goto, pipeUseingRefUnit, Point.index, Point.other]
  have told : protocol.step () { g with status := setBit g.status 1 }
      ⟨.close, .p0, .listener .p1 (.ret none), none⟩ =
      some ({ g with status := setBit g.status 1 }.emit (.listenerClose .p1),
        ⟨.close, .p0, .gcDec0 (.ret none), none⟩) := rfl
  exact (((run.tail (.start started)).tail (.step read)).tail (.step marked)).tail (.step told)

theorem users_getting (g : Shared) (n : Nat) (call : Call) :
    users ⟨g, List.replicate n getting ++ [call]⟩ =
      n + call.useing + if g.initCalled then 0 else 1 := by
  have one : getting.useing = 1 := rfl
  simp [users, Config.total, one]

/-- With 2^27 users the word is negative, and a close then runs the close action
under all of them. -/
theorem close_action_under_overflow :
    ∃ c, protocol.Reaches (initial false) c ∧ .listenerClose .p1 ∈ c.shared.log ∧
      users c = 2 ^ 27 := by
  have full : i32 (16 * (134217727 : Nat) + 25) = -2147483639 := by
    simp only [i32]
    omega
  have run := gets_reach 134217727
  rw [full] at run
  have closed := close_reaches run (by decide) (by decide)
  have users := users_getting ({ pipeNew false with status := setBit (-2147483639) 1 }.emit
    (.listenerClose .p1)) 134217727 ⟨.close, .p0, .gcDec0 (.ret none), none⟩
  exact ⟨_, closed, List.mem_append_right _ (List.mem_singleton_self _), users⟩

end MoonInWater.Pipe
