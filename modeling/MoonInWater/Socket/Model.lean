import Mathlib.Logic.Function.Basic
import MoonInWater.Lib.CInt
import MoonInWater.Lib.Jobs

/-! The socket pool of common_socket.c: the calls on its sockets, the task that listens on epoll,
and what the kernel keeps of the descriptors. A system call, an atomic operation or a call into
the pipe is one step; an `Answer` says how it comes out. -/
namespace MoonInWater.Socket
open CInt Jobs

/-- fd_cat_e -/
inductive FdCat where
  | unjoinSocket
  | joinSocket
  | connectSocket
  | listenSocket
  | noSocket
deriving DecidableEq

/-- The categories under which _socket_close takes the descriptor out of epoll. -/
def FdCat.joined : FdCat → Bool
  | .joinSocket | .connectSocket | .listenSocket => true
  | .unjoinSocket | .noSocket => false

/-- A socket_private_s. `closed` and `users` are its status word, as useing_ref_inc, useing_ref_dec
and set_status_closed keep it. Histories: `entered` that epoll has taken the descriptor, `completed`
that the connect has completed, `closes` the runs of _socket_close, `drops` the references of the
module that were given back. -/
structure SocketPrivate where
  made : Bool
  closed : Bool
  users : Nat
  socketFd : Nat
  fdCat : FdCat
  entered : Bool
  completed : Bool
  closes : Nat
  drops : Nat
deriving DecidableEq

/-- The memory of a new pipe end. -/
def SocketPrivate.fresh : SocketPrivate :=
  ⟨false, false, 0, 0, .unjoinSocket, false, false, 0, 0⟩

/-- socket_pool_s with its sockets, and of the kernel the epoll instance and the descriptors that
are open. Histories: `connects` counts the completed connects, `leaked` are the descriptors whose
number was forgotten, `misused` counts the closes of one that is not open or is still in epoll. -/
structure SocketPool (S : Type) where
  listening : Bool
  curSocketNum : Int
  pDels : List S
  priv : S → SocketPrivate
  epoll : List (Nat × S)
  isOpen : Nat → Bool
  connects : Nat
  leaked : List Nat
  misused : Nat

/-- Of the events of epoll_wait, what the listen task looks at: EPOLLIN, EPOLLOUT, and any of
EPOLLRDHUP, EPOLLERR and EPOLLHUP. -/
structure Events where
  epollIn : Bool
  epollOut : Bool
  hangUp : Bool
deriving DecidableEq

/-- How a call into the kernel or the pipe comes out: `again` is EINPROGRESS of connect and EINTR of
accept, recv and send. -/
structure Answer (S : Type) where
  ok : Bool
  again : Bool
  fd : Nat
  socket : S
  events : List (S × Events)

/-- new_socket and new_listen_socket -/
inductive NewKind where
  | connect
  | listen
deriving DecidableEq

def NewKind.fdCat : NewKind → FdCat
  | .connect => .connectSocket
  | .listen => .listenSocket

/-- Who adds the descriptor to epoll: new_socket and new_listen_socket, or SOCKET_START. -/
inductive Adder where
  | newSocket
  | start
deriving DecidableEq

/-- Where the listen task stands with the socket of an event, in _socket_can_read,
_socket_can_write or at the close after them. -/
inductive ListenPc where
  | canRead
  | canWrite
  -- recv_event or send_event, if the other end of the pipe is reached
  | notify (write : Bool)
  | setClosed (write : Bool)
  | listenInc
  | accept
  | listenDec
  | connectInc
  | getSockOpt
  | connectDel
  | connectDec
  | hangUp
deriving DecidableEq

inductive Job (S : Type) where
  | getSocketpoolInstance
  | newSocket (kind : NewKind) (s : S)
  | socket (kind : NewKind) (s : S)
  | setUp (kind : NewKind) (s : S) (fd : Nat)
  | connect (s : S) (fd : Nat)
  | useingInc (kind : NewKind) (s : S) (fd : Nat)
  | place (kind : NewKind) (s : S) (fd : Nat)
  | epollAdd (adder : Adder) (s : S) (fd : Nat)
  | addFailed (adder : Adder) (s : S) (fd : Nat)
  | numInc (s : S)
  | close (fd : Nat)
  | useingRefDec (s : S)
  | setStatusClosed (s : S)
  -- _socket_close
  | socketClose (s : S)
  | numDec (s : S)
  | closeFd (s : S)
  | pipeClose (s : S)
  -- _new_socket
  | setSocketNonblock (s : S) (fd : Nat)
  | getOtherPointRef (s : S) (fd : Nat)
  | pipeNew (s : S) (fd : Nat)
  | onReady (s : S)
  -- _socket_rw
  | socketRw (s : S)
  | transfer (s : S)
  -- SOCKET_START of socket_control
  | socketStart (s : S)
  | join (s : S)
  -- listen_task
  | epollWait
  | batch (events : List (S × Events))
  | event (pc : ListenPc) (s : S) (mask : Events) (later : List (S × Events))
  | takeDels
  | drain (dels : List S)
deriving DecidableEq

inductive Entry (S : Type) where
  | getSocketpoolInstance
  | newSocket (s : S)
  | newListenSocket (s : S)
  | socketClose (s : S)
  | socketRead (s : S)
  | socketWrite (s : S)
  | socketStart (s : S)
deriving DecidableEq

variable {S : Type}

def enter : Entry S → List (Job S)
  | .getSocketpoolInstance => [.getSocketpoolInstance]
  | .newSocket s => [.newSocket .connect s]
  | .newListenSocket s => [.newSocket .listen s]
  | .socketClose s => [.setStatusClosed s]
  | .socketRead s | .socketWrite s => [.socketRw s]
  | .socketStart s => [.socketStart s]

namespace SocketPrivate

def useingRefInc (p : SocketPrivate) : SocketPrivate := { p with users := p.users + 1 }

def useingRefDec (p : SocketPrivate) : SocketPrivate := { p with users := p.users - 1 }

def setStatusClosed (p : SocketPrivate) : SocketPrivate := { p with closed := true }

/-- The decrement that leaves a closed word without users calls _socket_close. -/
def decCloses (p : SocketPrivate) : Bool := p.closed && p.users - 1 == 0

/-- So does the mark of an open word without users. -/
def markCloses (p : SocketPrivate) : Bool := !p.closed && p.users == 0

end SocketPrivate

/-- The call of _socket_close, where it is due. -/
def closing (due : Bool) (s : S) : List (Job S) := if due then [.socketClose s] else []

/-- After _socket_can_write. -/
def toHangUp (s : S) (mask : Events) (later : List (S × Events)) : Job S :=
  if mask.hangUp then .event .hangUp s mask later else .batch later

/-- After _socket_can_read. -/
def toWrite (s : S) (mask : Events) (later : List (S × Events)) : Job S :=
  if mask.epollOut then .event .canWrite s mask later else toHangUp s mask later

def toRead (s : S) (mask : Events) (later : List (S × Events)) : Job S :=
  if mask.epollIn then .event .canRead s mask later else toWrite s mask later

/-- After a step that _socket_can_read and _socket_can_write have alike. -/
def toNext (write : Bool) (s : S) (mask : Events) (later : List (S × Events)) : Job S :=
  if write then toHangUp s mask later else toWrite s mask later

namespace SocketPool

/-- socket or accept gives a descriptor that is not open. -/
def openFd (g : SocketPool S) (fd : Nat) : SocketPool S :=
  { g with isOpen := Function.update g.isOpen fd true }

/-- close takes an open descriptor out of epoll. -/
def closeFd (g : SocketPool S) (fd : Nat) : SocketPool S :=
  { g with
    isOpen := Function.update g.isOpen fd false
    epoll := g.epoll.filter fun e => e.1 ≠ fd
    misused := if g.isOpen fd = true ∧ ∀ e ∈ g.epoll, e.1 ≠ fd then g.misused
      else g.misused + 1 }

/-- EPOLL_CTL_DEL -/
def epollDel (g : SocketPool S) (fd : Nat) : SocketPool S :=
  { g with epoll := g.epoll.filter fun e => e.1 ≠ fd }

def leak (g : SocketPool S) (fd : Nat) : SocketPool S := { g with leaked := fd :: g.leaked }

/-- Pool before the first call. -/
def initial : SocketPool S :=
  ⟨false, 0, [], fun _ => .fresh, [], fun _ => false, 0, [], 0⟩

section
variable [DecidableEq S]

def set (g : SocketPool S) (s : S) (p : SocketPrivate) : SocketPool S :=
  { g with priv := Function.update g.priv s p }

/-- EPOLL_CTL_ADD -/
def epollAdd (g : SocketPool S) (s : S) (fd : Nat) : SocketPool S :=
  { g.set s { g.priv s with entered := true } with epoll := (fd, s) :: g.epoll }

/-- The descriptor is open and not yet in epoll. -/
def canAdd (g : SocketPool S) (fd : Nat) : Bool := g.isOpen fd && g.epoll.all fun e => e.1 ≠ fd

end
end SocketPool

section
variable [DecidableEq S]

/-- A step of new_socket or new_listen_socket, SOCKET_START, _socket_rw, _new_socket or
_socket_close. -/
def callAct (a : Answer S) (job : Job S) (g : SocketPool S) :
    Option (SocketPool S × List (Job S)) :=
  match job with
  | .newSocket kind s =>
    if (g.priv s).made then none
    else some (g.set s { g.priv s with made := true, fdCat := .noSocket }, [.socket kind s])
  | .socket kind s =>
    if a.ok then
      if g.isOpen a.fd then none else some (g.openFd a.fd, [.setUp kind s a.fd])
    else some (g, [.setStatusClosed s])
  | .setUp kind s fd =>
    if a.ok then
      match kind with
      | .connect => some (g, [.connect s fd])
      | .listen => some (g, [.useingInc .listen s fd])
    else some (g, [.close fd, .setStatusClosed s])
  | .connect s fd =>
    if a.ok then some (g, [.setSocketNonblock s fd, .setStatusClosed s])
    else if a.again then some (g, [.useingInc .connect s fd])
    -- the descriptor is not closed, nor is the socket
    else some (g.leak fd, [])
  | .useingInc kind s fd =>
    if (g.priv s).closed then some (g, [.close fd, .setStatusClosed s])
    else some (g.set s (g.priv s).useingRefInc, [.place kind s fd])
  | .place kind s fd =>
    some (g.set s { g.priv s with socketFd := fd, fdCat := kind.fdCat },
      [.epollAdd .newSocket s fd])
  | .epollAdd adder s fd =>
    if a.ok && g.canAdd (g.priv s).socketFd then
      some (g.epollAdd s (g.priv s).socketFd, [.numInc s])
    else some (g, [.addFailed adder s fd])
  | .addFailed .newSocket s fd =>
    some (g.set s { g.priv s with fdCat := .noSocket },
      [.useingRefDec s, .close fd, .setStatusClosed s])
  | .addFailed .start s _ =>
    some (g.set s { g.priv s with fdCat := .unjoinSocket }, [.useingRefDec s])
  | .numInc s => some ({ g with curSocketNum := i32 (g.curSocketNum + 1) }, [.useingRefDec s])
  | .close fd => some (g.closeFd fd, [])
  | .useingRefDec s =>
    some (g.set s (g.priv s).useingRefDec, closing (g.priv s).decCloses s)
  | .setStatusClosed s =>
    if (g.priv s).made then
      some (g.set s (g.priv s).setStatusClosed, closing (g.priv s).markCloses s)
    else none
  | .socketClose s =>
    let p := { g.priv s with closes := (g.priv s).closes + 1 }
    match p.fdCat with
    | .noSocket => some (g.set s p, [.pipeClose s])
    | .unjoinSocket => some (g.set s p, [.closeFd s])
    | .joinSocket | .connectSocket | .listenSocket =>
      some ((g.set s p).epollDel p.socketFd, [.numDec s])
  | .numDec s => some ({ g with curSocketNum := i32 (g.curSocketNum - 1) }, [.closeFd s])
  | .closeFd s => some (g.closeFd (g.priv s).socketFd, [.pipeClose s])
  | .pipeClose s =>
    if (g.priv s).fdCat.joined then some ({ g with pDels := s :: g.pDels }, [])
    else some (g.set s { g.priv s with drops := (g.priv s).drops + 1 }, [])
  | .setSocketNonblock s fd =>
    if a.ok then some (g, [.getOtherPointRef s fd]) else some (g.leak fd, [])
  | .getOtherPointRef s fd =>
    if a.ok then some (g, [.pipeNew s fd]) else some (g.leak fd, [])
  | .pipeNew _ fd =>
    if a.ok then
      if (g.priv a.socket).made then none
      else
        let p := { g.priv a.socket with made := true, socketFd := fd, fdCat := .unjoinSocket }
        some (g.set a.socket p, [.onReady a.socket])
    else some (g.leak fd, [])
  | .onReady s => if a.ok then some (g, []) else some (g, [.setStatusClosed s])
  | .socketRw s =>
    if (g.priv s).made then
      if (g.priv s).closed then some (g, [])
      else some (g.set s (g.priv s).useingRefInc, [.transfer s])
    else none
  | .transfer s => if a.again then some (g, [.transfer s]) else some (g, [.useingRefDec s])
  | .socketStart s =>
    if (g.priv s).made then
      if (g.priv s).closed then some (g, [])
      else some (g.set s (g.priv s).useingRefInc, [.join s])
    else none
  | .join s =>
    if (g.priv s).fdCat = .unjoinSocket then
      some (g.set s { g.priv s with fdCat := .joinSocket },
        [.epollAdd .start s (g.priv s).socketFd])
    else some (g, [.useingRefDec s])
  | _ => none

/-- A step of the listen task at the socket of an event. -/
def eventAct (a : Answer S) (s : S) (mask : Events) (later : List (S × Events))
    (pc : ListenPc) (g : SocketPool S) : Option (SocketPool S × List (Job S)) :=
  let p := g.priv s
  let goto (pc : ListenPc) : List (Job S) := [.event pc s mask later]
  match pc with
  | .canRead =>
    match p.fdCat with
    | .joinSocket => some (g, goto (.notify false))
    | .listenSocket => some (g, goto .listenInc)
    | .unjoinSocket | .connectSocket | .noSocket => some (g, [toWrite s mask later])
  | .canWrite =>
    match p.fdCat with
    | .joinSocket => some (g, goto (.notify true))
    | .connectSocket => some (g, goto .connectInc)
    | .unjoinSocket | .listenSocket | .noSocket => some (g, [toHangUp s mask later])
  | .notify write =>
    some (g, if a.ok then [toNext write s mask later] else goto (.setClosed write))
  | .setClosed write =>
    some (g.set s p.setStatusClosed, closing p.markCloses s ++ [toNext write s mask later])
  | .listenInc =>
    if p.closed then some (g, goto (.setClosed false))
    else some (g.set s p.useingRefInc, goto .accept)
  | .accept =>
    if a.ok then
      if g.isOpen a.fd then none
      else some (g.openFd a.fd, .setSocketNonblock s a.fd :: goto .accept)
    else some (g, if a.again then goto .accept else goto .listenDec)
  | .listenDec =>
    some (g.set s p.useingRefDec, closing p.decCloses s ++ [toWrite s mask later])
  | .connectInc =>
    if p.closed then some (g, goto (.setClosed true))
    else some (g.set s p.useingRefInc, goto .getSockOpt)
  | .getSockOpt =>
    if a.ok then some (g.set s { p with fdCat := .noSocket }, goto .connectDel)
    else some (g, goto .connectDec)
  | .connectDel =>
    -- cur_socket_num is not changed here
    some ({ (g.set s { p with completed := true }).epollDel p.socketFd with
        connects := g.connects + 1 },
      .setSocketNonblock s p.socketFd :: goto .connectDec)
  | .connectDec =>
    some (g.set s p.useingRefDec, closing p.decCloses s ++ goto (.setClosed true))
  | .hangUp => some (g.set s p.setStatusClosed, closing p.markCloses s ++ [.batch later])

/-- A step of the listen task. -/
def listenAct (a : Answer S) (job : Job S) (g : SocketPool S) :
    Option (SocketPool S × List (Job S)) :=
  match job with
  | .getSocketpoolInstance =>
    if g.listening then some (g, [])
    else if a.ok then some ({ g with listening := true }, [.epollWait])
    else some (g, [])
  | .epollWait =>
    if a.ok then
      if a.events.all fun e => g.epoll.any fun f => f.2 = e.1 then some (g, [.batch a.events])
      else none
    else some (g, [.epollWait])
  | .batch [] => some (g, [.takeDels])
  | .batch ((s, mask) :: later) => some (g, [toRead s mask later])
  | .event pc s mask later => eventAct a s mask later pc g
  | .takeDels => some ({ g with pDels := [] }, [.drain g.pDels])
  | .drain [] => some (g, [.epollWait])
  | .drain (s :: dels) =>
    some (g.set s { g.priv s with drops := (g.priv s).drops + 1 }, [.drain dels])
  | _ => none

def Job.listens : Job S → Bool
  | .getSocketpoolInstance | .epollWait | .batch _ | .event .. | .takeDels | .drain _ => true
  | _ => false

def act (a : Answer S) (job : Job S) (g : SocketPool S) :
    Option (SocketPool S × List (Job S)) :=
  if job.listens then listenAct a job g else callAct a job g

abbrev pool : Threads.Program (SocketPool S) (Call (Entry S) (Job S)) (Entry S) (Answer S) :=
  program enter act

end
end MoonInWater.Socket
