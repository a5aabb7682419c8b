import Mathlib.Data.Multiset.Bind
import Mathlib.Logic.Relation
import MoonInWater.Socket.Model

/-! The life of one socket: what the jobs that are left still have to do with it, the changes that
their steps make to it, and what these keep. -/
namespace MoonInWater.Socket

/-- What a job has to do with a socket. -/
inductive Mark where
  -- a descriptor is still to be placed in it
  | set
  -- a using reference is held; so it is by the next three
  | hold
  | add
  | sockOpt
  | del
  -- its connect is to be looked at
  | connect
  -- _socket_close is due, is to close the descriptor, is to leave the pipe
  | close
  | shut
  | leave
  -- the listen task has it from p_dels, has it among its events
  | drain
  | touch
deriving DecidableEq

def ListenPc.marks : ListenPc → List Mark
  | .accept | .listenDec | .connectDec => [.hold]
  | .connectInc => [.connect]
  | .getSockOpt => [.sockOpt]
  | .connectDel => [.del]
  | .canRead | .canWrite | .notify _ | .setClosed _ | .listenInc | .hangUp => []

variable {S : Type}

section
variable [DecidableEq S]

def marksOn (s t : S) (marks : List Mark) : List Mark := if t = s then marks else []

/-- The events of a batch that are of the socket. -/
def touches (s : S) (events : List (S × Events)) : List Mark :=
  List.replicate ((events.map Prod.fst).count s) .touch

def Job.marks (s : S) : Job S → List Mark
  | .socket _ t | .setUp _ t _ | .connect t _ | .useingInc _ t _ => marksOn s t [.set]
  | .place _ t _ => marksOn s t [.set, .hold]
  | .epollAdd _ t _ | .addFailed _ t _ => marksOn s t [.add]
  | .numInc t | .useingRefDec t | .transfer t | .join t => marksOn s t [.hold]
  | .socketClose t => marksOn s t [.close]
  | .numDec t | .closeFd t => marksOn s t [.shut]
  | .pipeClose t => marksOn s t [.leave]
  | .batch events => touches s events
  | .event pc t _ later => marksOn s t (pc.marks ++ [.touch]) ++ touches s later
  | .drain dels => List.replicate (dels.count s) .drain
  | _ => []

end

/-- A socket, how often it is in p_dels and in epoll, and how many jobs have each mark on it. -/
structure View where
  p : SocketPrivate
  dels : Nat
  regs : Nat
  set : Nat
  hold : Nat
  add : Nat
  sockOpt : Nat
  del : Nat
  connect : Nat
  close : Nat
  shut : Nat
  leave : Nat
  drain : Nat
  touch : Nat

/-- The descriptor that _socket_close is to close, or the listen task is to take over. -/
def View.holds (v : View) : Option Nat :=
  if v.p.made = true ∧ (v.p.fdCat ≠ .noSocket ∧ v.p.closes = 0 ∨ 0 < v.shut ∨ 0 < v.del) then
    some v.p.socketFd
  else none

/-- What every reachable state keeps of each socket. -/
structure View.Inv (v : View) : Prop where
  made : v.p.made = false → v.set + v.hold + v.add + v.connect + v.sockOpt + v.del = 0 ∧
    v.p.entered = false ∧ v.p.closed = false
  users : v.p.users = v.hold + v.add + v.sockOpt + v.del
  closes : v.p.closes + v.close = if v.p.closed = true ∧ v.p.users = 0 then 1 else 0
  drops : v.p.closes = v.p.drops + v.shut + v.leave + v.drain + v.dels
  regs : v.regs = if v.p.entered = true ∧ v.p.closes = 0 ∧ v.p.completed = false then 1 else 0
  set_le : v.set ≤ 1
  set : 0 < v.set → v.p.fdCat = .noSocket ∧ v.p.entered = false
  add_le : v.add ≤ 1
  add : 0 < v.add → v.p.fdCat.joined = true ∧ v.p.entered = false
  joined : v.p.fdCat.joined = true → v.p.entered = true ∨ 0 < v.add
  entered : v.p.entered = true →
    v.p.completed = true ∨ v.p.fdCat.joined = true ∨ 0 < v.del
  completed : v.p.completed = true → v.p.entered = true ∧ v.p.fdCat = .noSocket
  touch : 0 < v.touch → v.p.entered = true
  connect : 0 < v.connect + v.sockOpt → v.p.fdCat = .connectSocket ∧ v.p.entered = true
  single : v.connect + v.sockOpt + v.del ≤ 1
  del : 0 < v.del → v.p.fdCat = .noSocket ∧ v.p.entered = true ∧ v.p.completed = false
  late : 0 < v.touch → v.p.completed = false → v.p.drops = 0 ∧ v.drain = 0

/-- The steps after which the socket holds the descriptor that it held before. -/
inductive Quiet : View → View → Prop where
  | new (v : View) (fresh : v.p.made = false) : Quiet v
      { v with p := { v.p with made := true, fdCat := .noSocket }, set := v.set + 1 }
  | unset (v : View) : Quiet { v with set := v.set + 1 } v
  | inc (v : View) (made : v.p.made = true) (opened : v.p.closed = false) :
      Quiet v { v with p := v.p.useingRefInc, hold := v.hold + 1 }
  | dec (v : View) : Quiet { v with hold := v.hold + 1 }
      { v with p := v.p.useingRefDec, close := v.close + v.p.decCloses.toNat }
  | mark (v : View) (made : v.p.made = true) : Quiet v
      { v with p := v.p.setStatusClosed, close := v.close + v.p.markCloses.toNat }
  | enter (v : View) : Quiet { v with add := v.add + 1 }
      { v with p := { v.p with entered := true }, regs := v.regs + 1, hold := v.hold + 1 }
  | unjoin (v : View) : Quiet { v with add := v.add + 1 }
      { v with p := { v.p with fdCat := .unjoinSocket }, hold := v.hold + 1 }
  | join (v : View) (unjoined : v.p.fdCat = .unjoinSocket) : Quiet { v with hold := v.hold + 1 }
      { v with p := { v.p with fdCat := .joinSocket }, add := v.add + 1 }
  | closeNone (v : View) (none : v.p.fdCat = .noSocket) : Quiet { v with close := v.close + 1 }
      { v with p := { v.p with closes := v.p.closes + 1 }, leave := v.leave + 1 }
  | closeUnjoined (v : View) (unjoined : v.p.fdCat = .unjoinSocket) :
      Quiet { v with close := v.close + 1 }
      { v with p := { v.p with closes := v.p.closes + 1 }, shut := v.shut + 1 }
  | closeJoined (v : View) (joined : v.p.fdCat.joined = true) :
      Quiet { v with close := v.close + 1 }
      { v with p := { v.p with closes := v.p.closes + 1 }, regs := 0, shut := v.shut + 1 }
  | leave (v : View) (unjoined : v.p.fdCat.joined = false) : Quiet { v with leave := v.leave + 1 }
      { v with p := { v.p with drops := v.p.drops + 1 } }
  | leaveJoined (v : View) (joined : v.p.fdCat.joined = true) :
      Quiet { v with leave := v.leave + 1 } { v with dels := v.dels + 1 }
  | takeDels (v : View) (idle : v.touch = 0) :
      Quiet v { v with dels := 0, drain := v.drain + v.dels }
  | drain (v : View) : Quiet { v with drain := v.drain + 1 }
      { v with p := { v.p with drops := v.p.drops + 1 } }
  | wait (v : View) (k : Nat) (listed : 0 < k → 0 < v.regs) :
      Quiet v { v with touch := v.touch + k }
  | untouch (v : View) : Quiet { v with touch := v.touch + 1 } v
  | connect (v : View) (cat : v.p.fdCat = .connectSocket) (touched : 0 < v.touch)
      (idle : v.connect = 0 ∧ v.sockOpt = 0 ∧ v.del = 0) :
      Quiet v { v with connect := v.connect + 1 }
  | unconnect (v : View) : Quiet { v with connect := v.connect + 1 } v
  | connectInc (v : View) (opened : v.p.closed = false) : Quiet { v with connect := v.connect + 1 }
      { v with p := v.p.useingRefInc, sockOpt := v.sockOpt + 1 }
  | connectFails (v : View) :
      Quiet { v with sockOpt := v.sockOpt + 1 } { v with hold := v.hold + 1 }
  | connected (v : View) : Quiet { v with sockOpt := v.sockOpt + 1 }
      { v with p := { v.p with fdCat := .noSocket }, del := v.del + 1 }

/-- The steps by which the socket comes to hold a descriptor. -/
inductive Places (fd : Nat) : View → View → Prop where
  | place (v : View) (kind : NewKind) : Places fd { v with set := v.set + 1, hold := v.hold + 1 }
      { v with p := { v.p with socketFd := fd, fdCat := kind.fdCat }, add := v.add + 1 }
  | make (v : View) (fresh : v.p.made = false) : Places fd v
      { v with p := { v.p with made := true, socketFd := fd, fdCat := .unjoinSocket } }

/-- The steps by which it no longer holds one. -/
inductive GivesUp : View → View → Prop where
  | addFailed (v : View) : GivesUp { v with add := v.add + 1 }
      { v with p := { v.p with fdCat := .noSocket }, hold := v.hold + 1 }
  | connectDel (v : View) : GivesUp { v with del := v.del + 1 }
      { v with p := { v.p with completed := true }, regs := 0, hold := v.hold + 1 }
  | shut (v : View) : GivesUp { v with shut := v.shut + 1 } { v with leave := v.leave + 1 }

namespace View
variable {v v' : View}

theorem Inv.quiet (inv : v.Inv) (step : Quiet v v') : v'.Inv := by
  have ⟨made, users, closes, drops, regs, set_le, set, add_le, add, joined, entered, completed,
    touch, connect, single, del, late⟩ := inv
  cases step with
  | new _ fresh =>
    obtain ⟨none, outside, opened⟩ := made fresh
    exact { inv with
      made := by simp
      set_le := by dsimp only; omega
      set := fun _ => ⟨rfl, outside⟩
      add := by dsimp only; omega
      joined := by simp [FdCat.joined]
      entered := by simp [outside]
      completed := fun yes => absurd (completed yes).1 (by simp [outside])
      connect := by dsimp only; omega
      del := by dsimp only; omega }
  | unset _ =>
    exact { inv with
      made := by grind -linarith
      set_le := Nat.le_of_succ_le set_le
      set := fun _ => set (Nat.succ_pos _) }
  | inc _ yes opened =>
    exact { inv with
      made := by grind -linarith [SocketPrivate.useingRefInc]
      users := by grind -linarith [SocketPrivate.useingRefInc]
      closes := by grind -linarith [SocketPrivate.useingRefInc] }
  | dec _ =>
    exact { inv with
      made := by grind -linarith [SocketPrivate.useingRefDec]
      users := by grind -linarith [SocketPrivate.useingRefDec]
      closes := by grind -linarith [SocketPrivate.useingRefDec, SocketPrivate.decCloses] }
  | mark _ yes =>
    exact { inv with
      made := by grind -linarith [SocketPrivate.setStatusClosed]
      closes := by grind -linarith [SocketPrivate.setStatusClosed, SocketPrivate.markCloses] }
  | enter _ =>
    exact { inv with
      made := by grind -linarith
      users := by grind -linarith
      regs := by grind -linarith
      set := by grind -linarith [FdCat.joined]
      add_le := by grind -linarith
      add := by grind -linarith
      joined := by grind -linarith
      entered := by grind -linarith
      completed := by grind -linarith
      touch := by grind -linarith
      connect := by grind -linarith
      del := by grind -linarith }
  | unjoin _ =>
    exact { inv with
      made := by grind -linarith
      users := by grind -linarith
      set := by grind -linarith [FdCat.joined]
      add_le := by grind -linarith
      add := by grind -linarith
      joined := by grind -linarith [FdCat.joined]
      entered := by grind -linarith
      completed := by grind -linarith [FdCat.joined]
      connect := by grind -linarith
      del := by grind -linarith }
  | join _ unjoined =>
    exact { inv with
      made := by grind -linarith
      users := by grind -linarith
      set := by grind -linarith
      add_le := by grind -linarith [FdCat.joined]
      add := by grind -linarith [FdCat.joined]
      joined := by grind -linarith
      entered := by grind -linarith [FdCat.joined]
      completed := by grind -linarith
      connect := by grind -linarith
      del := by grind -linarith }
  | closeNone _ none =>
    exact { inv with
      closes := by grind -linarith
      drops := by grind -linarith
      regs := by grind -linarith [FdCat.joined] }
  | closeUnjoined _ unjoined =>
    exact { inv with
      closes := by grind -linarith
      drops := by grind -linarith
      regs := by grind -linarith [FdCat.joined] }
  | closeJoined _ yes =>
    exact { inv with
      closes := by grind -linarith
      drops := by grind -linarith
      regs := by grind -linarith }
  | leave _ unjoined =>
    exact { inv with
      drops := by grind -linarith
      late := by grind -linarith }
  | leaveJoined _ yes => exact { inv with drops := by grind -linarith }
  | takeDels _ idle =>
    exact { inv with
      drops := by grind -linarith
      late := by grind -linarith }
  | drain _ =>
    exact { inv with
      drops := by grind -linarith
      late := by grind -linarith }
  | wait _ k listed =>
    exact { inv with
      touch := by grind -linarith
      late := by grind -linarith }
  | untouch _ =>
    exact { inv with
      touch := fun _ => touch (Nat.succ_pos _)
      late := fun _ => late (Nat.succ_pos _) }
  | connect _ cat touched idle =>
    exact { inv with
      made := by grind -linarith
      connect := by grind -linarith
      single := by grind -linarith }
  | unconnect _ =>
    exact { inv with
      made := by grind -linarith
      connect := by grind -linarith
      single := by grind -linarith }
  | connectInc _ opened =>
    exact { inv with
      made := by grind -linarith [SocketPrivate.useingRefInc]
      users := by grind -linarith [SocketPrivate.useingRefInc]
      closes := by grind -linarith [SocketPrivate.useingRefInc]
      connect := by grind -linarith [SocketPrivate.useingRefInc]
      single := by grind -linarith }
  | connectFails _ =>
    exact { inv with
      made := by grind -linarith
      users := by grind -linarith
      connect := by grind -linarith
      single := by grind -linarith }
  | connected _ =>
    exact { inv with
      made := by grind -linarith
      users := by grind -linarith
      set := by grind -linarith
      add := by grind -linarith [FdCat.joined]
      joined := by grind -linarith [FdCat.joined]
      entered := by grind -linarith
      completed := by grind -linarith
      connect := by grind -linarith
      single := by grind -linarith
      del := by grind -linarith [FdCat.joined] }

theorem Inv.places (inv : v.Inv) (step : Places fd v v') : v'.Inv := by
  have ⟨made, users, closes, drops, regs, set_le, set, add_le, add, joined, entered, completed,
    touch, connect, single, del, late⟩ := inv
  cases step with
  | place _ kind =>
    have yes : kind.fdCat.joined = true := by cases kind <;> rfl
    exact { inv with
      made := by grind -linarith
      users := by grind -linarith
      set_le := by grind -linarith
      set := by grind -linarith
      add_le := by grind -linarith [FdCat.joined]
      add := by grind -linarith
      joined := by grind -linarith
      entered := by grind -linarith
      completed := by grind -linarith
      connect := by grind -linarith
      del := by grind -linarith }
  | make _ fresh =>
    exact { inv with
      made := by simp
      set := by grind -linarith
      add := by grind -linarith
      joined := by grind -linarith [FdCat.joined]
      entered := by grind -linarith
      completed := by grind -linarith
      connect := by grind -linarith
      del := by grind -linarith }

theorem Inv.givesUp (inv : v.Inv) (step : GivesUp v v') : v'.Inv := by
  have ⟨made, users, closes, drops, regs, set_le, set, add_le, add, joined, entered, completed,
    touch, connect, single, del, late⟩ := inv
  cases step with
  | addFailed _ =>
    exact { inv with
      made := by grind -linarith
      users := by grind -linarith
      set := by grind -linarith
      add_le := by grind -linarith
      add := by grind -linarith
      joined := by grind -linarith [FdCat.joined]
      entered := by grind -linarith
      completed := by grind -linarith
      connect := by grind -linarith
      del := by grind -linarith }
  | connectDel _ =>
    exact { inv with
      made := by grind -linarith
      users := by grind -linarith
      regs := by grind -linarith
      joined := by grind -linarith
      entered := by grind -linarith
      completed := by grind -linarith
      single := by grind -linarith
      del := by grind -linarith
      late := by grind -linarith }
  | shut _ =>
    exact { inv with drops := by grind -linarith }

theorem Inv.holds_quiet (inv : v.Inv) (step : Quiet v v') : v'.holds = v.holds := by
  have ⟨made, users, closes, drops, regs, set_le, set, add_le, add, joined, entered, completed,
    touch, connect, single, del, late⟩ := inv
  cases step with
  | unset _ | connectFails _ => rfl
  | new _ fresh => grind -linarith [View.holds]
  | closeNone _ none | closeUnjoined _ unjoined | closeJoined _ yes =>
    grind -linarith [View.holds, FdCat.joined]
  | unjoin _ | join _ unjoined | connected _ => grind -linarith [View.holds, FdCat.joined]
  | _ => rfl

theorem Inv.holds_places (inv : v.Inv) (step : Places fd v v') :
    v.holds = none ∧ v'.holds = some fd := by
  have ⟨made, users, closes, drops, regs, set_le, set, add_le, add, joined, entered, completed,
    touch, connect, single, del, late⟩ := inv
  cases step with
  | place _ kind =>
    have other : kind.fdCat ≠ .noSocket := by cases kind <;> simp [NewKind.fdCat]
    constructor <;> grind -linarith [View.holds]
  | make _ fresh => constructor <;> grind -linarith [View.holds]

theorem Inv.holds_givesUp (inv : v.Inv) (step : GivesUp v v') :
    v.holds = some v.p.socketFd ∧ v'.holds = none := by
  have ⟨made, users, closes, drops, regs, set_le, set, add_le, add, joined, entered, completed,
    touch, connect, single, del, late⟩ := inv
  cases step with
  | addFailed _ | connectDel _ | shut _ =>
    constructor <;> grind -linarith [View.holds, FdCat.joined]

end View
end MoonInWater.Socket
