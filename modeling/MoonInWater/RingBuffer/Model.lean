import MoonInWater.Lib.Threads
import MoonInWater.Lib.CInt

/-! The ring of ring_buffer.c. One turn of the loop of ring_read or ring_write, from
taking the mutex to giving it up, is one section; calls that wait may run again when
they are woken, at any time without a reason, or when their time is up. -/
namespace MoonInWater.RingBuffer
open CInt Threads

/-- A condition variable: the calls asleep on it, and those woken that have not run yet. -/
structure Cond where
  asleep : Nat
  woken : Nat
deriving DecidableEq

namespace Cond

def signal (c : Cond) : Cond := if c.asleep = 0 then c else ⟨c.asleep - 1, c.woken + 1⟩

def broadcast (c : Cond) : Cond := ⟨0, c.asleep + c.woken⟩

def wait (c : Cond) : Cond := { c with asleep := c.asleep + 1 }

end Cond

structure TimeVal where
  tvSec : Int
  tvUsec : Int
deriving DecidableEq

def tvAddup (dst src : TimeVal) : TimeVal :=
  let sec := dst.tvSec + src.tvSec
  let usec := dst.tvUsec + src.tvUsec
  if 1000000 ≤ usec then ⟨sec + usec / 1000000, usec % 1000000⟩ else ⟨sec, usec⟩

def tvCompare (tv1 tv2 : TimeVal) : Int :=
  if tv2.tvSec < tv1.tvSec then 1
  else if tv1.tvSec < tv2.tvSec then -1
  else if tv2.tvUsec < tv1.tvUsec then 1
  else if tv1.tvUsec < tv2.tvUsec then -1
  else 0

structure Flags where
  nowait : Bool
  replaceOld : Bool
  waitall : Bool
  peek : Bool
  timeout : Bool
  msgmode : Bool
deriving DecidableEq

structure Ring (B : Type) where
  isDestroy : Bool
  cur : Nat
  endAt : Nat
  length : Nat
  flags : Flags
  conReader : Cond
  conWriter : Cond
  buffer : List B
deriving DecidableEq

variable {B : Type}

/-- ring_new on `storage` as it comes from the allocation. -/
def ringNew (bufferLen : Nat) (flags : Flags) (storage : List B) : Ring B where
  isDestroy := false
  cur := 0
  endAt := 0
  length := (u32 (bufferLen + 1)).toNat
  flags := flags
  conReader := ⟨0, 0⟩
  conWriter := ⟨0, 0⟩
  buffer := storage

inductive Op where
  | read
  | write
  | close
deriving DecidableEq

inductive Pc where
  | entry
  | waiting
  | done (ret : Int)
deriving DecidableEq

/-- A call with its buffer `out` or `in`, which has the length `len`. `need` is
`out_len`, the length that is asked for, and `moved` keeps the bytes that the sections of
the call have copied. -/
structure Call (B : Type) where
  op : Op
  flags : Flags
  data : List B
  need : Int
  peekSkip : Int
  tv : TimeVal
  already : Int
  moved : List B
  pc : Pc
deriving DecidableEq

def Call.ret (c : Call B) (value : Int) : Call B := { c with pc := .done value }

/-- What a call is started with; `now` is the clock at that time. -/
structure Args (B : Type) where
  op : Op
  flags : Flags
  data : List B
  peekSkip : Int
  timeout : TimeVal
  now : TimeVal
deriving DecidableEq

/-- The bytes of `src` from `j` on over those of `dst` from `i` on; `none` where it
leaves one of the two. -/
def memcpy (dst : List B) (i : Int) (src : List B) (j n : Int) : Option (List B) :=
  if 0 ≤ i ∧ 0 ≤ j ∧ 0 ≤ n ∧ i + n ≤ dst.length ∧ j + n ≤ src.length then
    some (dst.take i.toNat ++ (src.drop j.toNat).take n.toNat ++ dst.drop (i + n).toNat)
  else none

def slice (l : List B) (i n : Int) : List B := (l.drop i.toNat).take n.toNat

/-- What ring_read and ring_write do before they take the mutex. -/
def enter (r : Ring B) (a : Args B) : Call B :=
  let len := i32 a.data.length
  let tv := if a.flags.timeout then tvAddup a.timeout a.now else ⟨0, 0⟩
  let call : Call B := ⟨a.op, a.flags, a.data, len, 0, tv, 0, [], .entry⟩
  match a.op with
  | .close => call
  | .read =>
    if a.data.length = 0 then call.ret 0
    else if a.flags.peek then
      if a.peekSkip < 0 ∨ (r.length : Int) - 1 ≤ a.peekSkip then call.ret 0
      else
        let room := (r.length : Int) - 1 - a.peekSkip
        if a.flags.msgmode ∧ room < u32 len then call.ret 0
        else { call with peekSkip := a.peekSkip, need := if room < u32 len then room else len }
    else call
  | .write =>
    if a.data.length = 0 then call.ret 0
    else if a.flags.msgmode ∧ (r.length : Int) - 1 < a.data.length then call.ret 0
    else call

/-- Message mode copies the whole message or nothing. -/
def msgWhole (flags : Flags) (really need : Int) : Int :=
  if flags.msgmode ∧ really < need then 0 else really

def readCopy (r : Ring B) (c : Call B) (really : Int) : Option (List B) :=
  let tmp := i32 (r.length - r.cur)
  let tmpSkip := i32 (tmp - c.peekSkip)
  if r.endAt < r.cur ∧ c.peekSkip < tmp ∧ tmpSkip < really then do
    let out ← memcpy c.data c.already r.buffer (r.cur + c.peekSkip) tmpSkip
    memcpy out (c.already + tmpSkip) r.buffer 0 (really - tmpSkip)
  else memcpy c.data c.already r.buffer (r.cur + c.peekSkip) really

def readOver (r : Ring B) (c : Call B) : Ring B × Call B :=
  (if c.flags.peek ∧ r.endAt ≠ r.cur then { r with conReader := r.conReader.signal } else r,
    c.ret c.already)

/-- The end of a turn of ring_read, with what could be read and what was needed
before the copy. -/
def readTail (now : TimeVal) (canRead needRead : Int) (r : Ring B) (c : Call B) :
    Ring B × Call B :=
  if needRead < canRead then ({ r with conReader := r.conReader.signal }, c.ret c.already)
  else if canRead = needRead then readOver r c
  else if r.isDestroy then (r, c.ret (if 0 < c.already then c.already else -1))
  else if (¬ c.flags.waitall ∧ 0 < c.already) ∨ c.flags.nowait ∨ r.flags.nowait then readOver r c
  else if c.flags.timeout ∧ 0 ≤ tvCompare now c.tv then readOver r c
  else ({ r with conReader := r.conReader.wait }, { c with pc := .waiting })

def canRead (r : Ring B) (c : Call B) : Int :=
  let tmp := i32 (r.length - r.cur)
  i32 (u32 (tmp + r.endAt) % r.length - c.peekSkip)

/-- The copy of a turn of ring_read, with what of it moves the ring on. -/
def readMove (r : Ring B) (c : Call B) (really : Int) : Option (Ring B × Call B) := do
  let out ← readCopy r c really
  let moved := c.moved ++ slice out c.already really
  let c := { c with data := out, already := c.already + really, moved := moved }
  if c.flags.peek then some (r, c)
  else
    let cur := (u32 (r.cur + really) % r.length).toNat
    some ({ r with cur := cur, conWriter := r.conWriter.signal }, c)

/-- A turn of the loop of ring_read. -/
def readSection (now : TimeVal) (r : Ring B) (c : Call B) : Option (Ring B × Call B) := do
  let can := canRead r c
  let need := i32 (c.need - c.already)
  let really := msgWhole c.flags (if can < need then can else need) need
  let (r, c) ← if 0 < really then readMove r c really else some (r, c)
  some (readTail now can need r c)

def writeCopy (r : Ring B) (c : Call B) (really : Int) : Option (List B) :=
  let tmp := i32 (r.length - r.endAt)
  if r.cur ≤ r.endAt ∧ tmp < really then do
    let buffer ← memcpy r.buffer r.endAt c.data c.already tmp
    memcpy buffer 0 c.data (c.already + tmp) (really - tmp)
  else memcpy r.buffer r.endAt c.data c.already really

/-- The end of a turn of ring_write. -/
def writeTail (now : TimeVal) (canWrite needWrite : Int) (r : Ring B) (c : Call B) :
    Ring B × Call B :=
  if needWrite < canWrite then ({ r with conWriter := r.conWriter.signal }, c.ret c.already)
  else if canWrite = needWrite then (r, c.ret c.already)
  else if c.flags.replaceOld ∨ (c.flags.nowait ∨ r.flags.nowait) ∨
      (¬ c.flags.waitall ∧ 0 < c.already) then (r, c.ret c.already)
  -- the comparison has its operands the other way round than in ring_read
  else if c.flags.timeout ∧ 0 ≤ tvCompare c.tv now then (r, c.ret c.already)
  else ({ r with conWriter := r.conWriter.wait }, { c with pc := .waiting })

def canWrite (r : Ring B) : Int :=
  let tmp := i32 (r.length - r.endAt)
  i32 (u32 (tmp + r.cur - 1) % r.length)

/-- The copy of a turn of ring_write; one that replaces old bytes moves the reader too. -/
def writeMove (r : Ring B) (c : Call B) (can really : Int) : Option (Ring B × Call B) := do
  let buffer ← writeCopy r c really
  let moved := c.moved ++ slice c.data c.already really
  let c := { c with already := i32 (c.already + really), moved := moved }
  let endAt := (u32 (r.endAt + really) % r.length).toNat
  let cur := if can < really then (u32 (r.cur + (really - can)) % r.length).toNat else r.cur
  some ({ r with
    buffer := buffer
    endAt := endAt
    cur := cur
    conReader := r.conReader.signal }, c)

/-- A turn of the loop of ring_write. -/
def writeSection (now : TimeVal) (r : Ring B) (c : Call B) : Option (Ring B × Call B) :=
  if r.isDestroy then some (r, c.ret (if 0 < c.already then c.already else -1))
  else do
    let need := i32 (c.need - c.already)
    let can := canWrite r
    -- only the last bytes of a long input replace old ones
    let skips := c.flags.replaceOld ∧ (r.length : Int) - 1 < u32 need
    let c := if skips then { c with already := i32 (c.already + need - r.length + 1) } else c
    let need := if skips then i32 (r.length - 1) else need
    let really := if c.flags.replaceOld then need else if can < need then can else need
    let really := msgWhole c.flags really need
    let (r, c) ← if 0 < really then writeMove r c can really else some (r, c)
    some (writeTail now can need r c)

/-- The section of ring_close. -/
def closeSection (r : Ring B) (c : Call B) : Ring B × Call B :=
  if r.isDestroy then (r, c.ret 0)
  else ({ r with
    isDestroy := true
    conReader := r.conReader.broadcast
    conWriter := r.conWriter.broadcast }, c.ret 0)

def runSection (now : TimeVal) (r : Ring B) (c : Call B) : Option (Ring B × Call B) :=
  match c.op with
  | .read => readSection now r c
  | .write => writeSection now r c
  | .close => some (closeSection r c)

/-- A call from its start to the end of its first turn. -/
def firstTurn (now : TimeVal) (r : Ring B) (a : Args B) : Option (Ring B × Call B) :=
  match (enter r a).pc with
  | .done _ => some (r, enter r a)
  | _ => runSection now r (enter r a)

def Ring.cond (r : Ring B) : Op → Cond
  | .write => r.conWriter
  | _ => r.conReader

def Ring.setCond (r : Ring B) (op : Op) (c : Cond) : Ring B :=
  match op with
  | .write => { r with conWriter := c }
  | _ => { r with conReader := c }

inductive Wake where
  | signal
  | spurious
  | timedOut
deriving DecidableEq

/-- Which calls wait on a condition variable is left open: one that wakes takes
what a signal has left there, or leaves the sleepers. -/
def Wake.leave (wake : Wake) (c : Cond) : Option Cond :=
  match wake with
  | .signal => if c.woken = 0 then none else some { c with woken := c.woken - 1 }
  | .spurious | .timedOut => if c.asleep = 0 then none else some { c with asleep := c.asleep - 1 }

/-- How the surroundings answer a section: the clock, and how the call wakes if it waits. -/
structure Answer where
  now : TimeVal
  wake : Wake
deriving DecidableEq

/-- The ring, and what each section has copied, in order. -/
structure Shared (B : Type) where
  ring : Ring B
  log : List (Op × List B)
deriving DecidableEq

/-- The mutex is taken after the wait, or for the first time. -/
def resume (a : Answer) (r : Ring B) (c : Call B) : Option (Ring B × Call B) :=
  match c.pc with
  | .done _ => none
  | .entry => runSection a.now r c
  | .waiting => do
    let cond ← a.wake.leave (r.cond c.op)
    let r := r.setCond c.op cond
    if a.wake = .timedOut then
      if c.flags.timeout then
        some (if c.op = .read then readOver r c else (r, c.ret c.already))
      else none
    else runSection a.now r c

def step (a : Answer) (g : Shared B) (c : Call B) : Option (Shared B × Call B) := do
  let (ring, c') ← resume a g.ring c
  some (⟨ring, g.log ++ [(c.op, c'.moved.drop c.moved.length)]⟩, c')

/-- Calls of ring_read, ring_write and ring_close on one ring. -/
def calls : Program (Shared B) (Call B) (Args B) Answer where
  start a g := some (g, enter g.ring a)
  step := step

end MoonInWater.RingBuffer
