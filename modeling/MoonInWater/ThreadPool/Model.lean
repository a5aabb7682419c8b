import MoonInWater.Lib.Threads

/-! The thread pool of moon_pthread_pool.c. Each section under process_mutex and each
operation on the ring is one step; a thread that pthread_create has made starts to run at
any later time. -/
namespace MoonInWater.ThreadPool
open Threads

/-- The bounds that pthreadpool_hub is initialised with. -/
structure Limits where
  processMax : Nat
  idleMax : Nat
  positive : 1 ≤ idleMax
  le : idleMax ≤ processMax

/-- PROCESS_MAX_DEFAULT and IDLE_MAX_DEFAULT. -/
def pthreadpoolHub : Limits := ⟨64, 8, by decide, by decide⟩

/-- A task with the number of the put_task call that it was given to. -/
structure Ticket (T : Type) where
  call : Nat
  task : T
deriving DecidableEq

/-- The ring holds whole tasks; `refs` are its references. -/
structure Ring (T : Type) where
  isDestroy : Bool
  queue : List (Ticket T)
  refs : Int
deriving DecidableEq

/-- `born` counts the threads that have been created and have not run yet, `puts` the
put_task calls so far. -/
structure Pool (T : Type) where
  status : Int
  processNum : Int
  taskNum : Int
  ring : Ring T
  born : Nat
  puts : Nat
deriving DecidableEq

variable {T : Type} {lim : Limits}

def initial : Pool T := ⟨0, 0, 0, ⟨false, [], 0⟩, 0, 0⟩

def Pool.refInc (g : Pool T) : Pool T := { g with ring.refs := g.ring.refs + 1 }

def Pool.refDec (g : Pool T) : Pool T := { g with ring.refs := g.ring.refs - 1 }

/-- How the surroundings answer: whether the time of a read is up, whether
pthread_create and ring_new succeed. All threads of the start-up are created. -/
structure Answer (lim : Limits) where
  timedOut : Bool
  created : Bool
  ringMade : Bool
  startup : Nat → Bool
  all : ∀ i < lim.idleMax, startup i = true

inductive ReadResult (T : Type) where
  | task (t : Ticket T)
  | zero
  | error

/-- A read of one task in message mode. One whose time is up looks at nothing, and a
destroyed ring is read until it is empty. -/
def ringRead (timedOut : Bool) (r : Ring T) : Option (Ring T × ReadResult T) :=
  if timedOut then some (r, .zero)
  else match r.queue with
    | t :: rest => some ({ r with queue := rest }, .task t)
    | [] => if r.isDestroy then some (r, .error) else none

/-- A write of one task that does not wait: the ring has room for ten tasks a thread. -/
def ringWrite (lim : Limits) (r : Ring T) (t : Ticket T) : Option (Ring T) :=
  if r.isDestroy then none
  else if r.queue.length < lim.processMax * 10 then some { r with queue := r.queue ++ [t] }
  else none

inductive WorkerPc (T : Type) where
  | read
  | run (t : Ticket T)
  | finish
  | idle
  | refDec
  | closeRing
  | brokenRefDec
  | brokenLeave
  | left
deriving DecidableEq

inductive PutPc where
  | count
  | refInc
  | create
  | uncount
  | refDec
  | write
  | unput
  | done (ret : Int)
deriving DecidableEq

inductive InstancePc where
  | look
  | lock
  | done (made : Bool)
deriving DecidableEq

/-- `ran` are the tasks whose task_func the thread has called, in order. -/
inductive Call (T : Type) where
  | worker (ran : List (Ticket T)) (pc : WorkerPc T)
  | put (ticket : Option (Ticket T)) (pc : PutPc)
  | getInstance (pc : InstancePc)
deriving DecidableEq

/-- process_func. -/
def processFunc (lim : Limits) (timedOut : Bool) (g : Pool T) (ran : List (Ticket T)) :
    WorkerPc T → Option (Pool T × List (Ticket T) × WorkerPc T)
  | .read => do
    let (ring, result) ← ringRead timedOut g.ring
    let g := { g with ring := ring }
    match result with
    | .task t => some (g, ran, .run t)
    | .zero => some (g, ran, .idle)
    | .error => some (g, ran, .closeRing)
  | .run t => some (g, ran ++ [t], .finish)
  | .finish => some ({ g with taskNum := g.taskNum - 1 }, ran, .read)
  | .idle =>
    if g.taskNum + lim.idleMax < g.processNum then
      some ({ g with processNum := g.processNum - 1 }, ran, .refDec)
    else some (g, ran, .read)
  | .refDec => some (g.refDec, ran, .left)
  | .closeRing => some ({ g with ring.isDestroy := true }, ran, .brokenRefDec)
  | .brokenRefDec => some (g.refDec, ran, .brokenLeave)
  | .brokenLeave => some ({ g with processNum := g.processNum - 1 }, ran, .left)
  | .left => none

/-- The first section of _put_task; the second component is `new`. -/
def countTask (lim : Limits) (g : Pool T) : Pool T × Bool :=
  let g : Pool T := { g with taskNum := g.taskNum + 1 }
  if g.processNum < g.taskNum ∧ g.processNum < lim.processMax then
    ({ g with processNum := g.processNum + 1 }, true)
  else (g, false)

/-- _put_task. -/
def putTaskStep (lim : Limits) (created : Bool) (g : Pool T) (t : Ticket T) :
    PutPc → Option (Pool T × PutPc)
  | .count =>
    let (g, new) := countTask lim g
    some (g, if new then .refInc else .write)
  | .refInc => some (g.refInc, .create)
  | .create =>
    if created then some ({ g with born := g.born + 1 }, .write) else some (g, .uncount)
  | .uncount => some ({ g with processNum := g.processNum - 1 }, .refDec)
  | .refDec => some (g.refDec, .write)
  | .write =>
    match ringWrite lim g.ring t with
    | some ring => some ({ g with ring := ring }, .done 0)
    | none => some (g, .unput)
  | .unput => some ({ g with taskNum := g.taskNum - 1 }, .done (-1))
  | .done _ => none

/-- The first `n` turns of the loop of process_pool_start. -/
def processPoolStart (startup : Nat → Bool) : Nat → Pool T → Pool T
  | 0, g => g
  | n + 1, g =>
    let g := processPoolStart startup n g
    let g := { g with processNum := g.processNum + 1 }.refInc
    if startup n then { g with born := g.born + 1 }
    else { g with processNum := g.processNum - 1 }.refDec

/-- get_pthreadpool_instance. -/
def getPthreadpoolInstance (a : Answer lim) (g : Pool T) :
    InstancePc → Option (Pool T × InstancePc)
  | .look => some (g, if g.status = 0 then .lock else .done true)
  | .lock =>
    if g.status = 0 then
      if a.ringMade then
        let g := { g with ring := ⟨false, [], 1⟩ }
        some ({ processPoolStart a.startup lim.idleMax g with status := 1 }, .done true)
      else some (g, .done false)
    else some (g, .done true)
  | .done _ => none

/-- `put` is a call of put_task, with whether p_data and p_task are given. -/
inductive Event (T : Type) where
  | thread
  | put (pool : Bool) (task : Option T)
  | getInstance

/-- put_task up to _put_task. The pool is only known from get_pthreadpool_instance. -/
def putTask (pool : Bool) (task : Option T) (g : Pool T) : Option (Pool T × Call T) :=
  let ticket := task.map (⟨g.puts, ·⟩)
  let g := { g with puts := g.puts + 1 }
  if pool = false ∨ task.isNone then some (g, .put ticket (.done (-1)))
  else if g.status = 0 then none
  else some (g, .put ticket .count)

def start : Event T → Pool T → Option (Pool T × Call T)
  | .thread, g =>
    if g.born = 0 then none else some ({ g with born := g.born - 1 }, .worker [] .read)
  | .put pool task, g => putTask pool task g
  | .getInstance, g => some (g, .getInstance .look)

def step (a : Answer lim) (g : Pool T) : Call T → Option (Pool T × Call T)
  | .worker ran pc => (processFunc lim a.timedOut g ran pc).map fun r => (r.1, .worker r.2.1 r.2.2)
  | .put (some t) pc => (putTaskStep lim a.created g t pc).map fun r => (r.1, .put (some t) r.2)
  | .put none _ => none
  | .getInstance pc => (getPthreadpoolInstance a g pc).map fun r => (r.1, .getInstance r.2)

/-- The pool with its callers and its threads. -/
def pool (T : Type) (lim : Limits) : Program (Pool T) (Call T) (Event T) (Answer lim) where
  start := start
  step := step

end MoonInWater.ThreadPool
