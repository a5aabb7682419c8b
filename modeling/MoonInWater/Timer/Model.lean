import MoonInWater.Avl.Model
import MoonInWater.Common.DList
import MoonInWater.Lib.CInt

/-! moon_timer.c: the timers in the tree of ids and in the chains of equal ids, the
calls, and the thread that runs them. A function whose tree or chain walk outlives its
fuel returns `none`. -/
namespace MoonInWater.Timer
open Avl Chain DList CInt

structure TimeVal where
  sec : Int
  usec : Int
deriving DecidableEq

/-- timer_desc_s. -/
structure Desc where
  markId : Int
  repeatNum : Int
  timeUs : Int
deriving DecidableEq

/-- timer_inter_s, with its status bits. -/
structure Inter where
  id : Int
  processing : Bool
  stop : Bool
  del : Bool
  prevMarkId : Int
  desc : Desc
deriving DecidableEq

/-- Where timer_task is: outside the two halves of a round, in the loop between them
after the timer `last` of the chain `pInter`, or closing the deleted ones. -/
inductive Task (P : Type) where
  | idle
  | visiting (pInter : P) (last : Option P)
  | closing (pInterDels : P)
deriving DecidableEq

/-- One turn of the loop between the halves, and whether it called times_up. -/
structure Visit (P : Type) where
  timer : P
  markId : Int
  timesUp : Bool
deriving DecidableEq

/-- timer_runtime_s with the memory of the timers. The last three fields keep what
happened to the pipes: which were given to timer_new, how often each was closed and
dropped, and the turns of all rounds. -/
structure State (P : Type) where
  avl : Mem P
  list : P → Link P
  inter : P → Inter
  earliest : Option P
  tvBase : TimeVal
  task : Task P
  started : P → Bool
  released : P → Nat
  visits : List (Visit P)

variable {P : Type}

/-- Pipes come zeroed from their allocation. -/
def init (tvBase : TimeVal) : State P where
  avl := ⟨fun _ => detached, none⟩
  list := fun _ => loose
  inter := fun _ => ⟨0, false, false, false, 0, ⟨0, 0, 0⟩⟩
  earliest := none
  tvBase := tvBase
  task := .idle
  started := fun _ => false
  released := fun _ => 0
  visits := []

def timevalOffsetUs (cur base : TimeVal) : Int :=
  u64 (u64 (cur.sec - base.sec) * 1000000 + cur.usec - base.usec)

/-- The id of a timer that is joined at the time `now`. -/
def State.nextId (s : State P) (now : TimeVal) (p : P) : Int :=
  u64 (timevalOffsetUs now s.tvBase + (s.inter p).desc.timeUs)

def timerCmpFunc (inter : P → Inter) (id : Int) (p : P) : Int :=
  if id < (inter p).id then 1 else if (inter p).id < id then -1 else 0

variable [DecidableEq P]

def State.modify (s : State P) (p : P) (f : Inter → Inter) : State P :=
  { s with inter := Function.update s.inter p (f (s.inter p)) }

/-- `status |= TIMER_STOP`. -/
def State.setStop (s : State P) (p : P) : State P := s.modify p fun i => { i with stop := true }

/-- `status &= ~TIMER_STOP`. -/
def State.clearStop (s : State P) (p : P) : State P := s.modify p fun i => { i with stop := false }

/-- `status |= TIMER_DEL`. -/
def State.setDel (s : State P) (p : P) : State P := s.modify p fun i => { i with del := true }

def State.setId (s : State P) (p : P) (id : Int) : State P := s.modify p fun i => { i with id }

/-- `close` of the pipe and `ref_dec` of its gc interface. -/
def State.release (s : State P) (p : P) : State P :=
  { s with released := Function.update s.released p (s.released p + 1) }

def State.leftest (fuel : Nat) (s : State P) : Option (State P) :=
  (avlLeftestNode fuel s.avl.root s.avl).map fun first => { s with earliest := first }

/-- The part of timer_leave_avl that takes the tree node away from `p`. -/
def leaveNode (fuel : Nat) (p : P) (s : State P) : Option (State P) :=
  match (s.list p).next with
  | none => do
    let (avl, _) ← avlDel2 fuel p s.avl
    let s := { s with avl }
    if s.earliest = some p then s.leftest fuel else some s
  | some next =>
    let s := { s with avl := avlReplace2 next p s.avl }
    some (if s.earliest = some p then { s with earliest := some next } else s)

def timerLeaveAvl (fuel : Nat) (p : P) (s : State P) : Option (State P) :=
  if (s.inter p).stop then some s
  else do
    let s := s.setStop p
    let s ← if (s.list p).prev = none then leaveNode fuel p s else some s
    some { s with list := (dlistDel p s.list).1 }

/-- The addition to the tree under a new id, or to the chain that has the id already. -/
def addId (fuel : Nat) (id : Int) (p : P) (s : State P) : Option (State P) := do
  let s := s.setId p id
  let (avl, cmp) ← avlAdd2 fuel p (timerCmpFunc s.inter id) s.avl
  let s := { s with avl }
  some (if p ≠ cmp then { s with list := dlistAppend (some cmp) p s.list } else s)

/-- The earliest timer after `p` has been joined. -/
def earlier (inter : P → Inter) (p : P) : Option P → Option P
  | none => some p
  | some e => if (inter p).id < (inter e).id then some p else some e

def timerJoinAvl (fuel : Nat) (now : TimeVal) (p : P) (s : State P) : Option (State P) := do
  let id := s.nextId now p
  let s ← addId fuel id p (s.clearStop p)
  some { s with earliest := earlier s.inter p s.earliest }

def timerNew (fuel : Nat) (now : TimeVal) (pPipe : Option P) (pDesc : Option Desc) (s : State P) :
    Option (State P × Int) :=
  match pPipe, pDesc with
  | some p, some desc =>
    if desc.timeUs = 0 then some (s, -1)
    else do
      let s := s.modify p fun i => { i with desc }
      let s ← if desc.repeatNum ≠ 0 then timerJoinAvl fuel now p s else some (s.setStop p)
      some ({ s with started := Function.update s.started p true }, 0)
  | _, _ => some (s, -1)

/-- timer_del; the pipe is closed after the mutex is left. -/
def timerDel (fuel : Nat) (pPipe : Option P) (s : State P) : Option (State P) :=
  match pPipe with
  | none => some s
  | some p =>
    if (s.inter p).del ∨ (s.inter p).processing then some (s.setDel p)
    else do
      let s ← timerLeaveAvl fuel p s
      some ((s.setDel p).release p)

def timerSet (fuel : Nat) (now : TimeVal) (pPipe : Option P) (pDesc : Option Desc) (s : State P) :
    Option (State P × Int) :=
  match pPipe, pDesc with
  | some p, some desc =>
    if desc.timeUs = 0 ∨ desc.repeatNum = 0 then some (s, -1)
    else if (s.inter p).del then some (s, -1)
    else do
      let s := s.modify p fun i => { i with desc }
      let s ← if (s.inter p).processing then some s
        else do timerJoinAvl fuel now p (← timerLeaveAvl fuel p s)
      some (s.clearStop p, 0)
  | _, _ => some (s, -1)

def timerStop (fuel : Nat) (pPipe : Option P) (s : State P) : Option (State P × Int) :=
  match pPipe with
  | none => some (s, -1)
  | some p => do
    let s ← if (s.inter p).del ∨ (s.inter p).processing then some s else timerLeaveAvl fuel p s
    some (s.setStop p, 0)

def timerRestart (fuel : Nat) (now : TimeVal) (pPipe : Option P) (s : State P) :
    Option (State P × Int) :=
  match pPipe with
  | none => some (s, -1)
  | some p =>
    if (s.inter p).del then some (s, -1)
    else if (s.inter p).stop ∧ (s.inter p).desc.repeatNum ≠ 0 then do
      let s ← if (s.inter p).processing then some s else timerJoinAvl fuel now p s
      some (s.clearStop p, 0)
    else some (s, -1)

/-- What the first half of a round does to each timer of the chain. -/
def Inter.mark (i : Inter) : Inter :=
  { i with
    prevMarkId := i.desc.markId
    processing := true
    desc := if 0 ≤ i.desc.repeatNum then { i.desc with repeatNum := i.desc.repeatNum - 1 }
      else i.desc }

def markChain : Nat → Option P → State P → Option (State P)
  | 0, _, _ => none
  | _ + 1, none, s => some s
  | fuel + 1, some p, s => markChain fuel (s.list p).next (s.modify p Inter.mark)

/-- The locked part of timer_task up to the unlock before the callbacks; nothing but a
wait when no timer is due. -/
def firstHalf (fuel : Nat) (now : TimeVal) (s : State P) : Option (State P) :=
  match s.earliest with
  | none => some s
  | some p =>
    if timevalOffsetUs now s.tvBase < (s.inter p).id then some s
    else do
      let (avl, _) ← avlDel2 fuel p s.avl
      let s ← markChain fuel (some p) { s with avl }
      let s ← s.leftest fuel
      some { s with task := .visiting p none }

/-- The timer that the loop between the halves comes to after `last`. -/
def State.nextVisit (s : State P) (pInter : P) : Option P → Option P
  | none => some pInter
  | some last => (s.list last).next

/-- One turn of the loop between the halves; `found` is whether get_other_point_ref
returns the other point. -/
def visit (found : Bool) (pInter p : P) (s : State P) : State P :=
  let s := { s with
    visits := s.visits ++ [⟨p, (s.inter p).prevMarkId, found⟩]
    task := .visiting pInter (some p) }
  if found then s else s.setDel p

/-- The loop of the second half over the chain, with the list of the deleted ones. -/
def rejoin (now : TimeVal) : Nat → Option P → Option P → State P → Option (State P × Option P)
  | 0, _, _, _ => none
  | _ + 1, none, dels, s => some (s, dels)
  | fuel + 1, some p, dels, s => do
    let (list, next) := dlistDel p s.list
    let s := { s with list }.modify p fun i => { i with processing := false }
    if (s.inter p).del = false ∧ (s.inter p).stop = false ∧ (s.inter p).desc.repeatNum ≠ 0 then
      rejoin now fuel next dels (← addId fuel (s.nextId now p) p s)
    else if (s.inter p).del then
      let s := s.setStop p
      rejoin now fuel next (some p) { s with list := dlistInsert dels p s.list }
    else rejoin now fuel next dels s

def Task.ofDels : Option P → Task P
  | none => .idle
  | some p => .closing p

/-- The locked part of timer_task after the callbacks. -/
def secondHalf (fuel : Nat) (now : TimeVal) (pInter : P) (s : State P) : Option (State P) := do
  let (s, dels) ← rejoin now fuel (some pInter) none s
  let s ← s.leftest fuel
  some { s with task := .ofDels dels }

/-- One turn of the loop that closes the deleted timers. -/
def closeDel (p : P) (s : State P) : State P :=
  let (list, next) := dlistDel p s.list
  { s with list, task := .ofDels next }.release p

/-- The calls of the interface and the sections of timer_task. -/
inductive Event (P : Type) where
  | new (now : TimeVal) (pPipe : Option P) (pDesc : Option Desc)
  | set (now : TimeVal) (pPipe : Option P) (pDesc : Option Desc)
  | stop (pPipe : Option P)
  | restart (now : TimeVal) (pPipe : Option P)
  | del (pPipe : Option P)
  | firstHalf (now : TimeVal)
  | visit (found : Bool)
  | secondHalf (now : TimeVal)
  | close
deriving DecidableEq

/-- Each timer is given to timer_new once, and to the other calls after that. -/
def step (fuel : Nat) (e : Event P) (s : State P) : Option (State P) :=
  match e with
  | .new now pPipe pDesc =>
    if pPipe.all fun p => !s.started p then (timerNew fuel now pPipe pDesc s).map Prod.fst else none
  | .set now pPipe pDesc =>
    if pPipe.all s.started then (timerSet fuel now pPipe pDesc s).map Prod.fst else none
  | .stop pPipe =>
    if pPipe.all s.started then (timerStop fuel pPipe s).map Prod.fst else none
  | .restart now pPipe =>
    if pPipe.all s.started then (timerRestart fuel now pPipe s).map Prod.fst else none
  | .del pPipe => if pPipe.all s.started then timerDel fuel pPipe s else none
  | .firstHalf now =>
    match s.task with
    | .idle => Timer.firstHalf fuel now s
    | _ => none
  | .visit found =>
    match s.task with
    | .visiting pInter last =>
      (s.nextVisit pInter last).map fun p => Timer.visit found pInter p s
    | _ => none
  | .secondHalf now =>
    match s.task with
    | .visiting pInter last =>
      if s.nextVisit pInter last = none then Timer.secondHalf fuel now pInter s else none
    | _ => none
  | .close =>
    match s.task with
    | .closing p => some (closeDel p s)
    | _ => none

end MoonInWater.Timer
