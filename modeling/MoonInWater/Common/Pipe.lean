import MoonInWater.Common.UseingRef

/-! The pipe of moon_pipe.c: two ends, a status word with ready and closed bits
under a using count, and a mutex that callers wait on until the pipe is ready.
Each read, compare and swap, atomic add and mutex operation is one step. -/
namespace MoonInWater.Pipe
open CInt Threads UseingRef

/-- One of the two ends. -/
inductive Point where
  | p0
  | p1
deriving DecidableEq

def Point.index : Point → Nat
  | .p0 => 0
  | .p1 => 1

def Point.other : Point → Point
  | .p0 => .p1
  | .p1 => .p0

/-- PIPE_STATUS_READY. -/
def pipeStatusReady : Int := 0x1

/-- PIPE_POINT0_CLOSED shifted by the index of the end. -/
def Point.closedBit (p : Point) : Int := 0x2 * 2 ^ p.index

/-- PIPE_USEING_REF_UNIT. -/
def pipeUseingRefUnit : Int := 0x10

/-- PIPE_NO_MUTEX. -/
def pipeNoMutex : Int := 0x1

/-- `status & PIPE_CLOSED_MASK`. -/
def closedMask (status : Int) : Int := status / 2 % 4 * 2

def Closed (status : Int) : Prop := closedMask status ≠ 0

def Ready (status : Int) : Prop := hasBit status 0

instance (status : Int) : Decidable (Closed status) := inferInstanceAs (Decidable (_ ≠ _))
instance (status : Int) : Decidable (Ready status) := inferInstanceAs (Decidable (hasBit _ _))

/-- The actions that the statements order: calls into the two ends, and the
mutex and init steps that they are compared with. -/
inductive Event where
  | init (isFail : Bool)
  | initUnlock
  | mutexDestroy
  | listenerClose (p : Point)
  | gcInc (p : Point)
  | gcDec (p : Point)
deriving DecidableEq

structure Shared where
  status : Int
  mutexStatus : Int
  refNum : Int
  mutexHeld : Bool
  initCalled : Bool
  log : List Event
deriving DecidableEq

def Shared.emit (g : Shared) (e : Event) : Shared := { g with log := g.log ++ [e] }

/-- pipe_new: pipe_new2 on zeroed memory takes the reference that pipe_init_done
gives back, locks the mutex of a two-way pipe, and PIPE_ALLOC is set last. -/
def pipeNew (isTwoWay : Bool) : Shared where
  status := setBit (i32 ((if isTwoWay then 0 else pipeStatusReady) + pipeUseingRefUnit)) 3
  mutexStatus := if isTwoWay then 0 else pipeNoMutex
  refNum := 1
  mutexHeld := isTwoWay
  initCalled := false
  log := []

inductive Kind where
  | getOtherPointRef
  | close
  | initDone (isFail : Bool)
deriving DecidableEq

/-- Where pipe_useing_ref_dec and pipe_close go on: they return from the call, or
pipe_close returns into pipe_init_done. A void call returns `none`. -/
inductive After where
  | ret (value : Option Int)
  | initMutex
deriving DecidableEq

inductive Pc where
  | useingInc
  | useingSwap (tmp : Int)
  | ready
  | mutexRef (pc : RefPc)
  | lock
  | unlock
  | mutexDel
  | check
  | checkClosed
  | refInc
  | pipeRefInc
  | useingDec (value : Option Int)
  | close (after : After)
  | closeSwap (tmp : Int) (after : After)
  | listener (p : Point) (after : After)
  | gcDec0 (after : After)
  | gcDec1 (after : After)
  | initReady
  | initRead
  | initSwap (tmp : Int)
  | initMutex
  | initUnlock
  | done (value : Option Int)
deriving DecidableEq

/-- A call from the end `point`. `incAt` is the place in the log of its ref_inc
of the other end. -/
structure Call where
  kind : Kind
  point : Point
  pc : Pc
  incAt : Option Nat
deriving DecidableEq

def Call.goto (call : Call) (pc : Pc) : Call := { call with pc := pc }

def After.pc : After → Pc
  | .ret value => .done value
  | .initMutex => .initMutex

/-- After a step of useing_ref_inc, useing_ref_dec or set_status_closed on the
mutex status. -/
def afterMutexRef : RefPc → RefNext → Pc
  | _, .goto pc => .mutexRef pc
  | _, .closeFun => .mutexDel
  | .inc, .ret value | .incSwap _, .ret value => if 0 ≤ value then .lock else .check
  | .dec, .ret _ => .check
  | .close, .ret _ | .closeSwap _, .ret _ => .useingDec none

def Kind.afterMutexDel : Kind → Pc
  | .initDone _ => .useingDec none
  | _ => .check

/-- The close action of pipe_useing_ref_dec, called from the end `p`. -/
def closeAction (tmp : Int) (p : Point) (after : After) : Pc :=
  if closedMask tmp = p.closedBit then .listener p.other after
  else if closedMask tmp = p.other.closedBit then .listener p after
  else .gcDec0 after

/-- pipe_init_done is called once. -/
def start (entry : Kind × Point) (g : Shared) : Option (Shared × Call) :=
  match entry.1 with
  | .getOtherPointRef => some (g, ⟨entry.1, entry.2, .useingInc, none⟩)
  | .close => some (g, ⟨entry.1, entry.2, .close (.ret none), none⟩)
  | .initDone isFail =>
    if g.initCalled then none
    else some ({ g with initCalled := true }.emit (.init isFail),
      ⟨entry.1, entry.2, if isFail then .close .initMutex else .initReady, none⟩)

def step (_ : Unit) (g : Shared) (call : Call) : Option (Shared × Call) :=
  match call.pc with
  -- pipe_useing_ref_inc
  | .useingInc =>
    some (g, call.goto (if Closed g.status then .done (some (-1)) else .useingSwap g.status))
  | .useingSwap tmp =>
    if g.status = tmp then
      some ({ g with status := i32 (tmp + pipeUseingRefUnit) }, call.goto .ready)
    else some (g, call.goto .useingInc)
  -- pipe_get_other_point_ref
  | .ready => some (g, call.goto (if Ready g.status then .check else .mutexRef .inc))
  | .mutexRef pc =>
    let (status, next) := refStep g.mutexStatus pc
    some ({ g with mutexStatus := status }, call.goto (afterMutexRef pc next))
  | .lock => if g.mutexHeld then none else some ({ g with mutexHeld := true }, call.goto .unlock)
  | .unlock => some ({ g with mutexHeld := false }, call.goto (.mutexRef .dec))
  | .mutexDel => some (g.emit .mutexDestroy, call.goto call.kind.afterMutexDel)
  | .check => some (g, call.goto (if Ready g.status then .checkClosed else .useingDec (some (-1))))
  | .checkClosed =>
    some (g, call.goto (if Closed g.status then .useingDec (some (-1)) else .refInc))
  | .refInc =>
    some (g.emit (.gcInc call.point.other),
      { call with pc := .pipeRefInc, incAt := some g.log.length })
  | .pipeRefInc => some ({ g with refNum := i32 (g.refNum + 1) }, call.goto (.useingDec (some 0)))
  -- pipe_useing_ref_dec
  | .useingDec value =>
    let tmp := i32 (g.status - pipeUseingRefUnit)
    some ({ g with status := tmp }, call.goto
      (if 0 ≤ tmp ∧ tmp < pipeUseingRefUnit ∧ Closed tmp then
        closeAction tmp call.point (.ret value)
      else .done value))
  -- pipe_close
  | .close after =>
    some (g, call.goto (if Closed g.status then after.pc else .closeSwap g.status after))
  | .closeSwap tmp after =>
    if g.status = tmp then
      some ({ g with status := setBit tmp (call.point.index + 1) }, call.goto
        (if tmp < pipeUseingRefUnit then .listener call.point.other after else after.pc))
    else some (g, call.goto (.close after))
  -- the close action, in either of the two
  | .listener p after => some (g.emit (.listenerClose p), call.goto (.gcDec0 after))
  | .gcDec0 after => some (g.emit (.gcDec call.point), call.goto (.gcDec1 after))
  | .gcDec1 after => some (g.emit (.gcDec call.point.other), call.goto after.pc)
  -- pipe_init_done
  | .initReady => some (g, call.goto (if Ready g.status then .initMutex else .initRead))
  | .initRead => some (g, call.goto (.initSwap g.status))
  | .initSwap tmp =>
    if g.status = tmp then some ({ g with status := setBit tmp 0 }, call.goto .initMutex)
    else some (g, call.goto .initRead)
  | .initMutex =>
    some (g, call.goto (if hasBit g.mutexStatus 0 then .useingDec none else .initUnlock))
  | .initUnlock =>
    some ({ g with mutexHeld := false }.emit .initUnlock, call.goto (.mutexRef .close))
  | .done _ => none

def protocol : Program Shared Call (Kind × Point) Unit where
  start := start
  step := step

def initial (isTwoWay : Bool) : Config Shared Call := ⟨pipeNew isTwoWay, []⟩

end MoonInWater.Pipe
