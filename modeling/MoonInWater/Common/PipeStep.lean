import MoonInWater.Common.Pipe

/-! What one step of a pipe call does: to the status word and the mutex status as
counting words, to the log, and to what the call itself may rely on. -/
namespace MoonInWater.Pipe
open CInt Threads RefWord
open UseingRef (RefPc RefNext refStep refStep_effect refStep_goto refStep_goto_ok)

/-- The call holds a using reference; pipe_init_done holds that of pipe_new. -/
def Call.useing (call : Call) : Nat :=
  match call.pc with
  | .useingInc | .useingSwap _ | .done _ => 0
  | .close after | .closeSwap _ after | .listener _ after | .gcDec0 after | .gcDec1 after =>
    if after = .initMutex then 1 else 0
  | _ => 1

/-- The call holds a reference of the mutex status. -/
def Call.mutexUseing (call : Call) : Nat :=
  match call.pc with
  | .mutexRef .dec | .lock | .unlock => 1
  | _ => 0

/-- The call runs the close action. -/
def Call.closing (call : Call) : Nat :=
  match call.pc with
  | .listener _ _ | .gcDec0 _ | .gcDec1 _ => 1
  | _ => 0

def Call.deleting (call : Call) : Nat := if call.pc = .mutexDel then 1 else 0

/-- The value that the call is sure to return. -/
def Pc.result : Pc → Option Int
  | .useingDec value | .done value => value
  | .listener _ (.ret value) | .gcDec0 (.ret value) | .gcDec1 (.ret value) => value
  | .close (.ret value) | .closeSwap _ (.ret value) => value
  | _ => none

def users (c : Config Shared Call) : Nat :=
  c.total Call.useing + if c.shared.initCalled then 0 else 1

def Event.closes : Event → Bool
  | .listenerClose _ | .gcDec _ => true
  | _ => false

def closeEvents (g : Shared) : List Event := g.log.filter Event.closes

/-- Close actions that have run to their end. -/
def closeRuns (g : Shared) : Nat := (closeEvents g).length / 3

def destroys (g : Shared) : Nat := g.log.count .mutexDestroy

theorem closed_shift (w : Int) : Closed (w + 16) ↔ Closed w := by
  simp only [Closed, closedMask]
  omega

/-- Marking an end closed keeps the count, and only that end is marked when none was. -/
theorem close_mark (p : Point) (opened : ¬ Closed w) :
    closedMask (setBit w (p.index + 1)) = p.closedBit ∧
      setBit w (p.index + 1) / 16 = w / 16 := by
  simp only [Closed, closedMask, Decidable.not_not] at opened ⊢
  cases p with
  | p0 =>
    simp only [Point.index, Point.closedBit]
    rcases setBit_cases w 1 with ⟨set, same⟩ | ⟨set, same⟩ <;> rw [same] <;> omega
  | p1 =>
    simp only [Point.index, Point.closedBit]
    rcases setBit_cases w 2 with ⟨set, same⟩ | ⟨set, same⟩ <;> rw [same] <;> omega

theorem ready_mark (w : Int) :
    setBit w 0 / 16 = w / 16 ∧ closedMask (setBit w 0) = closedMask w := by
  simp only [closedMask]
  rcases setBit_cases w 0 with ⟨set, same⟩ | ⟨set, same⟩ <;> rw [same] <;> omega

theorem other_other (p : Point) : p.other.other = p := by cases p <;> rfl

theorem closeEvents_emit (g : Shared) (e : Event) :
    closeEvents (g.emit e) = closeEvents g ++ if e.closes then [e] else [] := by
  simp only [closeEvents, Shared.emit, List.filter_append, List.filter_cons, List.filter_nil]

theorem closeAction_of {q : Point} (marked : closedMask tmp = q.closedBit) (p : Point)
    (after : After) : closeAction tmp p after = .listener q.other after := by
  cases p <;> cases q <;> simp [closeAction, marked, Point.closedBit, Point.index, Point.other]

/-- A call between the parts of the close action, against the parts that have run. -/
def Call.Closing (g : Shared) (call : Call) : Prop :=
  match call.pc with
  | .listener q _ => closedMask g.status = q.other.closedBit ∧ closeEvents g = []
  | .gcDec0 _ => ∃ q, closedMask g.status = q.other.closedBit ∧
      closeEvents g = [.listenerClose q]
  | .gcDec1 _ => ∃ q, closedMask g.status = q.other.closedBit ∧
      closeEvents g = [.listenerClose q, .gcDec call.point]
  | _ => True

/-- The parts of a close action have all run: the end that is not marked closed is
told, then both ends are released. -/
def CloseDone (g : Shared) : Prop :=
  ∃ p q, closedMask g.status = Point.closedBit q.other ∧
    closeEvents g = [.listenerClose q, .gcDec p, .gcDec p.other]

/-- A two-way pipe is only ever opened by a successful pipe_init_done. -/
def Opened (isTwoWay : Bool) (g : Shared) : Prop := isTwoWay = true → .init false ∈ g.log

/-- What a call knows at a point: values read open, and the events behind it. -/
def Pc.At (isTwoWay : Bool) (g : Shared) (incAt : Option Nat) : Pc → Prop
  | .useingSwap tmp | .closeSwap tmp _ => ¬ Closed tmp
  | .mutexRef .close => .initUnlock ∈ g.log
  | .mutexRef (.closeSwap tmp) => ¬ UseingRef.Closed tmp ∧ .initUnlock ∈ g.log
  | .mutexRef (.incSwap tmp) => ¬ UseingRef.Closed tmp
  | .checkClosed | .refInc => Opened isTwoWay g
  | .pipeRefInc => Opened isTwoWay g ∧ incAt.isSome
  | .initReady | .initRead | .initSwap _ => .init false ∈ g.log
  | _ => True

structure Call.Ok (isTwoWay : Bool) (g : Shared) (call : Call) : Prop where
  point : call.pc.At isTwoWay g call.incAt
  granted : call.pc.result = some 0 → Opened isTwoWay g ∧ call.incAt.isSome
  order : ∀ i, call.incAt = some i → g.log[i]? = some (.gcInc call.point.other) ∧
    ∀ j, g.log[j]? = some (.gcDec call.point.other) → i < j

theorem Opened.mono (opened : Opened isTwoWay g) (grows : g.log <+: g'.log) :
    Opened isTwoWay g' := fun two => grows.subset (opened two)

theorem Pc.At.mono {pc : Pc} (here : pc.At isTwoWay g incAt) (grows : g.log <+: g'.log) :
    pc.At isTwoWay g' incAt := by
  cases pc with
  | mutexRef pc =>
    cases pc with
    | close => exact grows.subset here
    | closeSwap => exact ⟨here.1, grows.subset here.2⟩
    | inc | incSwap | dec => exact here
  | checkClosed | refInc => exact Opened.mono here grows
  | pipeRefInc => exact ⟨here.1.mono grows, here.2⟩
  | initReady | initRead | initSwap => exact grows.subset here
  | _ => exact here

theorem Call.Ok.mono {call : Call} (ok : call.Ok isTwoWay g) (grows : g.log <+: g'.log) :
    call.Ok isTwoWay g' where
  point := ok.point.mono grows
  granted value := ⟨(ok.granted value).1.mono grows, (ok.granted value).2⟩
  order i here := by
    obtain ⟨inc, first⟩ := ok.order i here
    obtain ⟨es, grown⟩ := grows
    have bound : i < g.log.length := (List.getElem?_eq_some_iff.mp inc).1
    rw [← grown]
    refine ⟨by rwa [List.getElem?_append_left bound], fun j dec => ?_⟩
    by_cases old : j < g.log.length
    · rw [List.getElem?_append_left old] at dec
      exact first j dec
    · omega

/-- The log only grows, and the marks of the status word stay. -/
theorem step_grows (acted : step () g call = some (g', call')) :
    g.log <+: g'.log := by
  obtain ⟨kind, point, pc, incAt⟩ := call
  cases pc with
  | done => contradiction
  | useingSwap | lock | closeSwap | initSwap =>
    simp only [step] at acted
    split at acted <;> cases acted <;> exact List.prefix_rfl
  | mutexDel | refInc | listener | gcDec0 | gcDec1 | initUnlock =>
    cases acted
    exact List.prefix_append _ _
  | _ =>
    cases acted
    exact List.prefix_rfl

/-- The status word as the word of a call's references and of its close action. -/
def statusView (g : Shared) (call : Call) : View :=
  ⟨g.status, call.useing, call.closing, closeRuns g⟩

def mutexView (g : Shared) (call : Call) : View :=
  ⟨g.mutexStatus, call.mutexUseing, call.deleting, destroys g⟩

theorem afterMutexRef_useing (call : Call) (pc : RefPc) (next : RefNext) :
    (call.goto (afterMutexRef pc next)).useing = 1 ∧
      (call.goto (afterMutexRef pc next)).closing = 0 := by
  cases next with
  | goto | closeFun => cases pc <;> exact ⟨rfl, rfl⟩
  | ret value =>
    cases pc with
    | inc | incSwap =>
      simp only [afterMutexRef]
      split <;> exact ⟨rfl, rfl⟩
    | dec | close | closeSwap => exact ⟨rfl, rfl⟩

theorem closeAction_weights (call : Call) (tmp : Int) (value : Option Int) :
    (call.goto (closeAction tmp call.point (.ret value))).useing = 0 ∧
      (call.goto (closeAction tmp call.point (.ret value))).closing = 1 := by
  simp only [closeAction]
  split
  · exact ⟨rfl, rfl⟩
  · split <;> exact ⟨rfl, rfl⟩

theorem after_weights (call : Call) (after : After) :
    (call.goto after.pc).useing = (if after = .initMutex then 1 else 0) ∧
      (call.goto after.pc).closing = 0 := by
  cases after <;> exact ⟨rfl, rfl⟩

theorem closeRuns_emit (e : Event) (other : e.closes = false) :
    closeRuns (Shared.emit g e) = closeRuns g := by
  simp only [closeRuns, closeEvents_emit, other, Bool.false_eq_true, if_false, List.append_nil]

theorem closeRuns_emit_closes (e : Event) (closes : e.closes = true) :
    closeRuns (Shared.emit g e) = ((closeEvents g).length + 1) / 3 := by
  simp only [closeRuns, closeEvents_emit, closes, if_true, List.length_append,
    List.length_singleton]

theorem step_status {call : Call} (ok : call.Ok isTwoWay g) (closing : call.Closing g)
    (acted : step () g call = some (g', call')) :
    Effect Closed (statusView g call) (statusView g' call') := by
  obtain ⟨kind, point, pc, incAt⟩ := call
  have opened := ok.point
  cases pc with
  | done => contradiction
  | useingInc | ready | check | checkClosed | initMutex | initReady =>
    cases acted
    simp only [statusView, Call.goto]
    split <;> exact .move
  | useingSwap tmp =>
    simp only [step] at acted
    split at acted <;> cases acted
    · subst tmp
      exact .grant opened
    · exact .move
  | mutexRef pc =>
    rcases stepped : refStep g.mutexStatus pc with ⟨status, next⟩
    simp only [step, stepped] at acted
    cases acted
    obtain ⟨useing, noClosing⟩ := afterMutexRef_useing ⟨kind, point, .mutexRef pc, incAt⟩ pc next
    exact .same rfl useing noClosing rfl
  | lock =>
    simp only [step] at acted
    split at acted <;> cases acted
    exact .move
  | unlock | pipeRefInc | initRead =>
    cases acted
    exact .move
  | mutexDel =>
    cases acted
    cases kind <;> exact .same rfl rfl rfl (closeRuns_emit _ rfl)
  | refInc | initUnlock =>
    cases acted
    exact .same rfl rfl rfl (closeRuns_emit _ rfl)
  | useingDec value =>
    cases acted
    simp only [statusView]
    obtain ⟨useing, one⟩ := closeAction_weights ⟨kind, point, .useingDec value, incAt⟩
      (i32 (g.status - pipeUseingRefUnit)) value
    split
    · rw [useing, one]
      exact .giveBack rfl (Nat.le_refl _) (iff_of_true rfl ‹_›)
    · exact .giveBack rfl (Nat.zero_le _) (iff_of_false Nat.zero_ne_one ‹_›)
  | close after =>
    cases acted
    obtain ⟨useing, noClosing⟩ := after_weights ⟨kind, point, .close after, incAt⟩ after
    split
    · exact .same rfl useing noClosing rfl
    · exact .move
  | closeSwap tmp after =>
    simp only [step] at acted
    split at acted <;> cases acted
    · subst tmp
      obtain ⟨mask, count⟩ := close_mark point opened
      have marked : Closed (setBit g.status (point.index + 1)) := by
        rw [Closed, mask]
        cases point <;> decide
      obtain ⟨useing, noClosing⟩ :=
        after_weights ⟨kind, point, .closeSwap g.status after, incAt⟩ after
      simp only [statusView]
      split
      · exact .mark opened marked count (Nat.le_refl _) (iff_of_true rfl ‹_›)
      · rw [useing, noClosing]
        exact .mark opened marked count (Nat.zero_le _) (iff_of_false Nat.zero_ne_one ‹_›)
    · exact .move
  | listener q after =>
    cases acted
    have made : closeRuns (g.emit (.listenerClose q)) = closeRuns g := by
      rw [closeRuns_emit_closes _ rfl, closeRuns, closing.2]
      simp
    exact .same rfl rfl rfl made
  | gcDec0 after =>
    cases acted
    obtain ⟨q, _, sofar⟩ := closing
    have made : closeRuns (g.emit (.gcDec point)) = closeRuns g := by
      rw [closeRuns_emit_closes _ rfl, closeRuns, sofar]
      simp
    exact .same rfl rfl rfl made
  | gcDec1 after =>
    cases acted
    obtain ⟨q, _, sofar⟩ := closing
    obtain ⟨useing, noClosing⟩ := after_weights ⟨kind, point, .gcDec1 after, incAt⟩ after
    have made : closeRuns (g.emit (.gcDec point.other)) = closeRuns g + 1 := by
      rw [closeRuns_emit_closes _ rfl, closeRuns, sofar]
      simp
    simp only [statusView, useing, noClosing, made]
    exact .run
  | initSwap tmp =>
    simp only [step] at acted
    split at acted <;> cases acted
    · subst tmp
      obtain ⟨count, mask⟩ := ready_mark g.status
      exact .flag count (by rw [Closed, Closed, mask])
    · exact .move

theorem destroys_emit (e : Event) (other : e ≠ .mutexDestroy) :
    destroys (Shared.emit g e) = destroys g := by
  simp only [destroys, Shared.emit, List.count_append, List.count_cons, List.count_nil]
  simp [other]

/-- What the mutex word sees of a step that stays off the mutex. -/
theorem mutex_same {call call' : Call} (status : g'.mutexStatus = g.mutexStatus)
    (none : call.mutexUseing = 0 ∧ call.deleting = 0)
    (none' : call'.mutexUseing = 0 ∧ call'.deleting = 0) (made : destroys g' = destroys g) :
    Effect UseingRef.Closed (mutexView g call) (mutexView g' call') :=
  .same status (none'.1.trans none.1.symm) (none'.2.trans none.2.symm) made

theorem after_mutex (call : Call) (after : After) :
    (call.goto after.pc).mutexUseing = 0 ∧ (call.goto after.pc).deleting = 0 := by
  cases after <;> exact ⟨rfl, rfl⟩

theorem closeAction_mutex (call : Call) (tmp : Int) (after : After) :
    (call.goto (closeAction tmp call.point after)).mutexUseing = 0 ∧
      (call.goto (closeAction tmp call.point after)).deleting = 0 := by
  simp only [closeAction]
  split
  · exact ⟨rfl, rfl⟩
  · split <;> exact ⟨rfl, rfl⟩

/-- The references and the destroy that a step of a mutex reference leaves. -/
theorem afterMutexRef_mutex (call : Call) {pc : RefPc} (here : call.pc = .mutexRef pc)
    (stepped : refStep w pc = (w', next)) :
    (call.goto (afterMutexRef pc next)).mutexUseing = next.held pc call.mutexUseing ∧
      (call.goto (afterMutexRef pc next)).deleting = next.owes := by
  simp only [Call.mutexUseing, here]
  cases pc with
  | inc | close =>
    simp only [refStep] at stepped
    split at stepped <;> cases stepped <;> exact ⟨rfl, rfl⟩
  | incSwap tmp =>
    simp only [refStep] at stepped
    split at stepped <;> cases stepped <;> exact ⟨rfl, rfl⟩
  | dec =>
    simp only [refStep] at stepped
    split at stepped
    · cases stepped
      exact ⟨rfl, rfl⟩
    · split at stepped <;> cases stepped <;> exact ⟨rfl, rfl⟩
  | closeSwap tmp =>
    simp only [refStep] at stepped
    split at stepped
    · split at stepped <;> cases stepped <;> exact ⟨rfl, rfl⟩
    · cases stepped
      exact ⟨rfl, rfl⟩

theorem step_mutex {call : Call} (ok : call.Ok isTwoWay g)
    (acted : step () g call = some (g', call')) :
    Effect UseingRef.Closed (mutexView g call) (mutexView g' call') := by
  obtain ⟨kind, point, pc, incAt⟩ := call
  have here := ok.point
  cases pc with
  | done => contradiction
  | mutexRef pc =>
    have pcOk : pc.Ok (Call.mutexUseing ⟨kind, point, .mutexRef pc, incAt⟩) := by
      cases pc with
      | inc | close => trivial
      | incSwap => exact here
      | dec => exact Nat.one_pos
      | closeSwap => exact here.1
    have effect := refStep_effect g.mutexStatus (destroys g) pcOk
    rcases stepped : refStep g.mutexStatus pc with ⟨status, next⟩
    obtain ⟨useing, deleting⟩ :=
      afterMutexRef_mutex ⟨kind, point, .mutexRef pc, incAt⟩ rfl stepped
    simp only [step, stepped] at acted effect
    cases acted
    simp only [mutexView, useing, deleting]
    exact effect
  | lock =>
    simp only [step] at acted
    split at acted <;> cases acted
    exact .move
  | unlock =>
    cases acted
    exact .move
  | mutexDel =>
    cases acted
    have once : destroys (g.emit .mutexDestroy) = destroys g + 1 := by
      simp [destroys, Shared.emit]
    cases kind <;> simp only [mutexView, once] <;> exact .run
  | initUnlock | refInc | listener | gcDec0 =>
    cases acted
    exact mutex_same rfl ⟨rfl, rfl⟩ ⟨rfl, rfl⟩ (destroys_emit _ (by simp))
  | gcDec1 after =>
    cases acted
    exact mutex_same rfl ⟨rfl, rfl⟩ (after_mutex _ after) (destroys_emit _ (by simp))
  | useingSwap | initSwap =>
    simp only [step] at acted
    split at acted <;> cases acted <;> exact .move
  | initRead | pipeRefInc =>
    cases acted
    exact .move
  | useingInc | ready | check | checkClosed | initReady | initMutex =>
    cases acted
    simp only [mutexView, Call.goto]
    split <;> exact .move
  | useingDec value =>
    cases acted
    split
    · exact mutex_same rfl ⟨rfl, rfl⟩ (closeAction_mutex _ _ _) rfl
    · exact .move
  | close after =>
    cases acted
    split
    · exact mutex_same rfl ⟨rfl, rfl⟩ (after_mutex _ after) rfl
    · exact .move
  | closeSwap tmp after =>
    simp only [step] at acted
    split at acted <;> cases acted
    · split
      · exact .move
      · exact mutex_same rfl ⟨rfl, rfl⟩ (after_mutex _ after) rfl
    · exact .move

theorem Call.Ok.goto {call : Call} (ok : call.Ok isTwoWay g) {pc : Pc}
    (point : pc.At isTwoWay g call.incAt)
    (granted : pc.result = some 0 → Opened isTwoWay g ∧ call.incAt.isSome) :
    (call.goto pc).Ok isTwoWay g := ⟨point, granted, ok.order⟩

/-- pipe_close and the close action keep the value to be returned after them. -/
theorem After.result_eq (after : After) :
    (Pc.gcDec0 after).result = after.pc.result ∧ (Pc.gcDec1 after).result = after.pc.result ∧
      (Pc.close after).result = after.pc.result ∧
      (∀ tmp, (Pc.closeSwap tmp after).result = after.pc.result) ∧
      ∀ q, (Pc.listener q after).result = after.pc.result := by
  cases after <;> exact ⟨rfl, rfl, rfl, fun _ => rfl, fun _ => rfl⟩

theorem closeAction_ok (tmp : Int) (p : Point) (after : After) :
    (closeAction tmp p after).At isTwoWay g incAt ∧
      (closeAction tmp p after).result = after.pc.result := by
  obtain ⟨dec0, _, _, _, listener⟩ := after.result_eq
  simp only [closeAction]
  split
  · exact ⟨trivial, listener _⟩
  · split
    · exact ⟨trivial, listener _⟩
    · exact ⟨trivial, dec0⟩

theorem mem_closeEvents (p : Point) : .gcDec p ∈ closeEvents g ↔ .gcDec p ∈ g.log := by
  simp [closeEvents, Event.closes]

theorem After.here (after : After) : after.pc.At isTwoWay g incAt := by
  cases after <;> trivial

theorem afterMutexRef_ok {pc : RefPc} (here : (Pc.mutexRef pc).At isTwoWay g incAt)
    (stepped : refStep w pc = (w', next)) :
    (afterMutexRef pc next).At isTwoWay g incAt ∧ (afterMutexRef pc next).result = none := by
  cases pc with
  | inc =>
    simp only [refStep] at stepped
    split at stepped <;> cases stepped
    · exact ⟨trivial, rfl⟩
    · exact ⟨‹_›, rfl⟩
  | close =>
    simp only [refStep] at stepped
    split at stepped <;> cases stepped
    · exact ⟨trivial, rfl⟩
    · exact ⟨⟨‹_›, here⟩, rfl⟩
  | incSwap tmp =>
    simp only [refStep] at stepped
    split at stepped <;> cases stepped <;> exact ⟨trivial, rfl⟩
  | dec =>
    simp only [refStep] at stepped
    split at stepped
    · cases stepped
      exact ⟨trivial, rfl⟩
    · split at stepped <;> cases stepped <;> exact ⟨trivial, rfl⟩
  | closeSwap tmp =>
    simp only [refStep] at stepped
    split at stepped
    · split at stepped <;> cases stepped <;> exact ⟨trivial, rfl⟩
    · cases stepped
      exact ⟨here.2, rfl⟩

/-- `quiet`: a user keeps the close action from starting. -/
theorem step_ok {call : Call} (ok : call.Ok isTwoWay g) (ready : Ready g.status → Opened isTwoWay g)
    (quiet : 0 < call.useing → closeEvents g = []) (acted : step () g call = some (g', call')) :
    call'.Ok isTwoWay g' := by
  have kept := ok.mono (step_grows acted)
  have here := ok.point
  obtain ⟨kind, point, pc, incAt⟩ := call
  cases pc with
  | done => contradiction
  | useingInc =>
    cases acted
    split
    · exact kept.goto trivial (by simp [Pc.result])
    · exact kept.goto ‹_› (by simp [Pc.result])
  | useingSwap tmp =>
    simp only [step] at acted
    split at acted <;> cases acted <;> exact kept.goto trivial (by simp [Pc.result])
  | ready =>
    cases acted
    split <;> exact kept.goto trivial (by simp [Pc.result])
  | mutexRef pc =>
    rcases stepped : refStep g.mutexStatus pc with ⟨status, next⟩
    obtain ⟨point, none⟩ := afterMutexRef_ok kept.point stepped
    simp only [step, stepped] at acted
    cases acted
    exact kept.goto point (by simp [none])
  | lock =>
    simp only [step] at acted
    split at acted <;> cases acted
    exact kept.goto trivial (by simp [Pc.result])
  | unlock =>
    cases acted
    exact kept.goto trivial (by simp [Pc.result])
  | mutexDel =>
    cases acted
    cases kind <;> exact kept.goto trivial (by simp [Pc.result, Kind.afterMutexDel])
  | check =>
    cases acted
    split
    · exact kept.goto (ready ‹_›) (by simp [Pc.result])
    · exact kept.goto trivial (by simp [Pc.result])
  | checkClosed =>
    cases acted
    split
    · exact kept.goto trivial (by simp [Pc.result])
    · exact kept.goto here (by simp [Pc.result])
  | refInc =>
    have grows := step_grows acted
    cases acted
    refine ⟨⟨here.mono grows, rfl⟩, by simp [Pc.result], fun i same => ?_⟩
    cases same
    refine ⟨List.getElem?_concat_length, fun j dec => ?_⟩
    have before : .gcDec point.other ∉ g.log := by
      rw [← mem_closeEvents, quiet Nat.one_pos]
      exact List.not_mem_nil
    by_contra late
    rcases Nat.lt_or_eq_of_le (Nat.le_of_not_lt late) with old | rfl
    · rw [Shared.emit, List.getElem?_append_left old] at dec
      exact before (List.mem_of_getElem? dec)
    · simp [Shared.emit] at dec
  | pipeRefInc =>
    cases acted
    exact kept.goto trivial fun _ => here
  | useingDec value =>
    cases acted
    split
    · obtain ⟨point, result⟩ :=
        closeAction_ok (i32 (g.status - pipeUseingRefUnit)) point (.ret value)
      exact kept.goto point fun same => ok.granted (result.symm.trans same)
    · exact kept.goto trivial ok.granted
  | close after =>
    cases acted
    split
    · exact kept.goto after.here fun same => kept.granted (by simpa [After.result_eq] using same)
    · exact kept.goto ‹_› fun same => kept.granted (by simpa [After.result_eq] using same)
  | closeSwap tmp after =>
    have granted := ok.granted
    obtain ⟨_, _, close, swap, listener⟩ := after.result_eq
    rw [swap] at granted
    simp only [step] at acted
    split at acted <;> cases acted
    · split
      · exact kept.goto trivial fun same => granted ((listener _).symm.trans same)
      · exact kept.goto after.here granted
    · exact kept.goto trivial fun same => granted (close.symm.trans same)
  | listener q after =>
    cases acted
    exact kept.goto trivial fun same => kept.granted (by simpa [After.result_eq] using same)
  | gcDec0 after =>
    cases acted
    exact kept.goto trivial fun same => kept.granted (by simpa [After.result_eq] using same)
  | gcDec1 after =>
    cases acted
    exact kept.goto after.here fun same => kept.granted (by simpa [After.result_eq] using same)
  | initReady =>
    cases acted
    split
    · exact kept.goto trivial (by simp [Pc.result])
    · exact kept.goto here (by simp [Pc.result])
  | initRead =>
    cases acted
    exact kept.goto here (by simp [Pc.result])
  | initSwap tmp =>
    simp only [step] at acted
    split at acted <;> cases acted
    · exact kept.goto trivial (by simp [Pc.result])
    · exact kept.goto here (by simp [Pc.result])
  | initMutex =>
    cases acted
    split <;> exact kept.goto trivial (by simp [Pc.result])
  | initUnlock =>
    cases acted
    exact kept.goto (by simp [Pc.At, Shared.emit]) (by simp [Pc.result])

theorem count_mask (w : Int) :
    closedMask (i32 (w + 16)) = closedMask w ∧ closedMask (i32 (w - 16)) = closedMask w ∧
      (Ready (i32 (w + 16)) ↔ Ready w) ∧ (Ready (i32 (w - 16)) ↔ Ready w) := by
  simp only [closedMask, Ready, hasBit, i32]
  omega

theorem close_ready (p : Point) (w : Int) : Ready (setBit w (p.index + 1)) ↔ Ready w := by
  cases p with
  | p0 =>
    rcases setBit_cases w 1 with ⟨_, same⟩ | ⟨_, same⟩
    · simp only [Point.index, Nat.zero_add, same]
    · simp only [Ready, hasBit, Point.index, Nat.zero_add, same]
      omega
  | p1 =>
    rcases setBit_cases w 2 with ⟨_, same⟩ | ⟨_, same⟩
    · simp only [Point.index, Nat.reduceAdd, same]
    · simp only [Ready, hasBit, Point.index, Nat.reduceAdd, same]
      omega

/-- The closed bits are set once. -/
theorem step_mask {call : Call} (ok : call.Ok isTwoWay g)
    (acted : step () g call = some (g', call')) :
    closedMask g'.status = closedMask g.status ∨
      ¬ Closed g.status ∧ ∃ p, closedMask g'.status = Point.closedBit p := by
  have here := ok.point
  obtain ⟨kind, point, pc, incAt⟩ := call
  cases pc with
  | done => contradiction
  | useingSwap tmp =>
    simp only [step] at acted
    split at acted <;> cases acted
    · subst tmp
      exact .inl (count_mask _).1
    · exact .inl rfl
  | useingDec =>
    cases acted
    exact .inl (count_mask _).2.1
  | closeSwap tmp =>
    simp only [step] at acted
    split at acted <;> cases acted
    · subst tmp
      exact .inr ⟨here, point, (close_mark point here).1⟩
    · exact .inl rfl
  | initSwap tmp =>
    simp only [step] at acted
    split at acted <;> cases acted
    · subst tmp
      exact .inl (ready_mark _).2
    · exact .inl rfl
  | lock =>
    simp only [step] at acted
    split at acted <;> cases acted
    exact .inl rfl
  | _ =>
    cases acted
    exact .inl rfl

theorem step_ready {call : Call} (ok : call.Ok isTwoWay g)
    (ready : Ready g.status → Opened isTwoWay g) (acted : step () g call = some (g', call')) :
    Ready g'.status → Opened isTwoWay g' := by
  have grows := step_grows acted
  have here := ok.point
  obtain ⟨kind, point, pc, incAt⟩ := call
  cases pc with
  | done => contradiction
  | useingSwap tmp =>
    simp only [step] at acted
    split at acted <;> cases acted
    · subst tmp
      exact fun set => ready ((count_mask _).2.2.1.mp set)
    · exact ready
  | useingDec =>
    cases acted
    exact fun set => ready ((count_mask _).2.2.2.mp set)
  | closeSwap tmp =>
    simp only [step] at acted
    split at acted <;> cases acted
    · subst tmp
      exact fun set => ready ((close_ready point _).mp set)
    · exact ready
  | initSwap tmp =>
    simp only [step] at acted
    split at acted <;> cases acted
    · exact fun _ _ => here
    · exact ready
  | lock =>
    simp only [step] at acted
    split at acted <;> cases acted
    exact ready
  | _ =>
    cases acted
    exact fun set => (ready set).mono grows

/-- The mutex status is marked closed only behind the unlock of pipe_init_done. -/
theorem step_unlocked {call : Call} (ok : call.Ok isTwoWay g)
    (unlocked : UseingRef.Closed g.mutexStatus → .initUnlock ∈ g.log)
    (acted : step () g call = some (g', call')) :
    UseingRef.Closed g'.mutexStatus → .initUnlock ∈ g'.log := by
  have grows := step_grows acted
  have here := ok.point
  obtain ⟨kind, point, pc, incAt⟩ := call
  cases pc with
  | done => contradiction
  | mutexRef pc =>
    cases acted
    cases pc with
    | inc | close => exact unlocked
    | dec =>
      intro closed
      apply unlocked
      simp only [UseingRef.Closed, nibble, UseingRef.useingRefUnit, i32] at closed ⊢
      omega
    | incSwap tmp =>
      simp only
      split
      · subst tmp
        intro closed
        apply unlocked
        simp only [UseingRef.Closed, nibble, UseingRef.useingRefUnit, i32] at closed ⊢
        omega
      · exact unlocked
    | closeSwap tmp => exact fun _ => here.2
  | useingSwap | closeSwap | initSwap | lock =>
    simp only [step] at acted
    split at acted <;> cases acted <;> exact unlocked
  | _ =>
    cases acted
    exact fun closed => grows.subset (unlocked closed)

/-- Only the close action emits its events. -/
theorem step_quiet {call : Call} (idle : call.closing = 0)
    (acted : step () g call = some (g', call')) : closeEvents g' = closeEvents g := by
  obtain ⟨kind, point, pc, incAt⟩ := call
  cases pc with
  | done | listener | gcDec0 | gcDec1 => contradiction
  | mutexDel | refInc | initUnlock =>
    cases acted
    exact (closeEvents_emit _ _).trans (List.append_nil _)
  | useingSwap | closeSwap | initSwap | lock =>
    simp only [step] at acted
    split at acted <;> cases acted <;> rfl
  | _ =>
    cases acted
    rfl

theorem Call.Closing.of_idle {call : Call} (idle : call.closing = 0) : call.Closing g := by
  obtain ⟨kind, point, pc, incAt⟩ := call
  cases pc with
  | listener | gcDec0 | gcDec1 => contradiction
  | _ => trivial

/-- The close action of the acting call starts, goes on or ends. -/
theorem step_closing {call : Call} (ok : call.Ok isTwoWay g) (closing : call.Closing g)
    (mask : Closed g.status → ∃ p, closedMask g.status = Point.closedBit p)
    (first : call.closing = 0 → call'.closing = 1 → closeEvents g = [])
    (acted : step () g call = some (g', call')) :
    call'.Closing g' ∧ (call.closing = 1 → call'.closing = 0 → CloseDone g') := by
  have here := ok.point
  obtain ⟨kind, point, pc, incAt⟩ := call
  cases pc with
  | done => contradiction
  | listener q after =>
    cases acted
    refine ⟨⟨q, closing.1, ?_⟩, fun _ none => absurd none Nat.one_ne_zero⟩
    rw [closeEvents_emit, closing.2]
    rfl
  | gcDec0 after =>
    cases acted
    obtain ⟨q, marked, sofar⟩ := closing
    refine ⟨⟨q, marked, ?_⟩, fun _ none => absurd none Nat.one_ne_zero⟩
    rw [closeEvents_emit, sofar]
    rfl
  | gcDec1 after =>
    cases acted
    obtain ⟨q, marked, sofar⟩ := closing
    refine ⟨Call.Closing.of_idle (after_weights _ after).2, fun _ _ => ⟨point, q, marked, ?_⟩⟩
    rw [closeEvents_emit, sofar]
    rfl
  | useingDec value =>
    cases acted
    refine ⟨?_, fun one => absurd one Nat.zero_ne_one⟩
    split
    · rw [if_pos ‹_›] at first
      obtain ⟨_, _, closed⟩ := ‹_ ∧ _›
      have same : closedMask (i32 (g.status - pipeUseingRefUnit)) = closedMask g.status :=
        (count_mask _).2.1
      rw [Closed, same] at closed
      obtain ⟨p, marked⟩ := mask closed
      have action := closeAction_of (same.trans marked) point (.ret value)
      rw [action] at first ⊢
      exact ⟨same.trans (marked.trans (by rw [other_other])), first rfl rfl⟩
    · trivial
  | closeSwap tmp after =>
    simp only [step] at acted
    split at acted <;> cases acted
    · subst tmp
      refine ⟨?_, fun one => absurd one Nat.zero_ne_one⟩
      split
      · rw [if_pos ‹_›] at first
        exact ⟨(close_mark point here).1.trans (by rw [other_other]), first rfl rfl⟩
      · exact Call.Closing.of_idle (after_weights _ after).2
    · exact ⟨trivial, fun one => absurd one Nat.zero_ne_one⟩
  | mutexRef pc =>
    rcases stepped : refStep g.mutexStatus pc with ⟨status, next⟩
    simp only [step, stepped] at acted
    cases acted
    exact ⟨Call.Closing.of_idle (afterMutexRef_useing _ pc next).2,
      fun one => absurd one Nat.zero_ne_one⟩
  | close after =>
    cases acted
    refine ⟨?_, fun one => absurd one Nat.zero_ne_one⟩
    split
    · exact Call.Closing.of_idle (after_weights _ after).2
    · trivial
  | mutexDel =>
    cases acted
    cases kind <;> exact ⟨trivial, fun one => absurd one Nat.zero_ne_one⟩
  | useingSwap | initSwap | lock =>
    simp only [step] at acted
    split at acted <;> cases acted <;> exact ⟨trivial, fun one => absurd one Nat.zero_ne_one⟩
  | useingInc | ready | check | checkClosed | initReady | initMutex =>
    cases acted
    refine ⟨?_, fun one => absurd one Nat.zero_ne_one⟩
    split <;> trivial
  | unlock | refInc | pipeRefInc | initRead | initUnlock =>
    cases acted
    exact ⟨trivial, fun one => absurd one Nat.zero_ne_one⟩

end MoonInWater.Pipe
