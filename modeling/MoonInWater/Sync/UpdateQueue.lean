import MoonInWater.Lib.CInt
import MoonInWater.Common.DList

/-! The queue of update packets of a shadow entity, linked from the newest at up_head to the
oldest at up_tail. -/
namespace MoonInWater.Sync.UpdateQueue
open CInt Chain DList

def clientMaxVersionNum : Int := 64

/-- update_packet_s; its buffer is left out. -/
structure UpdatePacket where
  id : Int
  version : Int
deriving DecidableEq

structure PacketQueue (P : Type) where
  upHead : Option P
  upTail : Option P
  packetsNum : Int
  links : P → Link P
  packets : P → UpdatePacket

/-- Both arguments are stored in the field id; the version stays as calloc leaves it. -/
def mallocUppac (id version : Int) : UpdatePacket :=
  let uppac : UpdatePacket := ⟨0, 0⟩
  let uppac := { uppac with id := id }
  { uppac with id := version }

variable {P : Type} [DecidableEq P]

/-- The queue after get_tail_packet, and the packet. `*p_num--` counts the pointer down and
leaves packets_num alone, here and in the next two. -/
def getTailPacket (q : PacketQueue P) : PacketQueue P × Option P :=
  match q.upTail with
  | none => (q, none)
  | some uppac =>
    let q := { q with upTail := (q.links uppac).prev }
    let q := if q.upTail = none then { q with upHead := none } else q
    ({ q with links := (dlistDel uppac q.links).1 }, some uppac)

/-- The loop of del_old_packet: the packets older than `oldValue` are passed. -/
def skipOld (q : PacketQueue P) (oldValue : Int) : Nat → Option P → Option (Option P)
  | _, none => some none
  | 0, some _ => none
  | fuel + 1, some uppac =>
    if (q.packets uppac).version < oldValue then skipOld q oldValue fuel (q.links uppac).prev
    else some (some uppac)

/-- With the head of the deleted packets. -/
def delOldPacket (fuel : Nat) (oldValue : Int) (q : PacketQueue P) :
    Option (PacketQueue P × Option P) :=
  match q.upTail with
  | none => some (q, none)
  | some _ =>
    (skipOld q oldValue fuel q.upTail).map fun uppac =>
      let q := { q with upTail := uppac }
      match uppac with
      | none => ({ q with upHead := none }, q.upHead)
      | some uppac =>
        match (q.links uppac).next with
        | none => (q, none)
        | some next => ({ q with links := dlistCut next q.links }, some next)

def delAllPacket (q : PacketQueue P) : PacketQueue P × Option P :=
  ({ q with upHead := none, upTail := none, packetsNum := 0 }, q.upHead)

/-- With the packet put out. After `*p_num++` the pointer is at the int `behind` packets_num,
which is what the limit is compared with. -/
def insertNewPacket (behind : Int) (uppac : P) (q : PacketQueue P) : PacketQueue P × Option P :=
  let q := { q with upHead := some uppac, links := dlistInsert q.upHead uppac q.links }
  let q := if q.upTail = none then { q with upTail := q.upHead } else q
  if clientMaxVersionNum ≤ behind then getTailPacket q else (q, none)

end MoonInWater.Sync.UpdateQueue
