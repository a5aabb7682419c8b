import MoonInWater.Session.Status

/-! The tasks that receive and send for a session, and the flags that say whether one is there. -/
namespace MoonInWater.Session.Tasks
open Threads Status

inductive TaskType where
  | recv
  | send
deriving DecidableEq

/-- The flag of a task, and the one that an event sets while it is there. -/
def TaskType.statusBit : TaskType → Flags
  | .recv => sessionRecving
  | .send => sessionSending

def TaskType.testBit : TaskType → Flags
  | .recv => sessionCanRecv
  | .send => sessionCanSend

/-- The flags of a session, whether it has an io, and `packet_num`, which the code that adds packets
keeps. An event `arrived` when no recv was tried since; one that the receive task has not seen
when it ends is `missed`. -/
structure SessionS where
  flags : Flags
  pIo : Bool
  packetNum : Int
  arrived : Bool
  missed : Bool
deriving DecidableEq

/-- A call, and the task that it becomes: the sections of session_recv_event, session_send_event
and add_packet_to_session; start_rs_task, with what put_task will return and whether a timer tries
again; the timer; the first section of a task; get_other_point_ref, with what it will return; the
loop; session_rs_continue; the section of session_send that takes a packet; session_triger_free. -/
inductive Local where
  | recvEvent
  | sendEvent
  | addPacket (n : Nat)
  | start (type : TaskType) (withTimer put : Bool)
  | timer (type : TaskType)
  | task (type : TaskType)
  | point (type : TaskType) (ret : Bool)
  | loop (type : TaskType) (decPacket : Bool)
  | rsContinue (type : TaskType) (decPacket : Bool)
  | next (decPacket : Bool)
  | leave (type : TaskType) (goaway : Bool)
  | done
deriving DecidableEq

inductive Request where
  | recvEvent
  | sendEvent
  | addPacket (n : Nat)

/-- What a turn of a loop does: the io took all bytes, or less, or failed; something is done without
the io, with or without the end of a packet; it tries again later, gives up, or wants a packet. -/
inductive Turn where
  | full
  | short
  | failed
  | work (ended : Bool)
  | tryAgain
  | error
  | next

structure Answer where
  put : Bool
  timer : Bool
  point : Bool
  turn : Turn

def isClosed (g : SessionS) : Bool := hasFlag g.flags sessionGoawayRecv

/-- try_start_send_task -/
def tryStartSendTask (g : SessionS) : SessionS × Bool :=
  if g.flags &&& (sessionSending ||| sessionCanSend) = sessionCanSend ∧ 0 < g.packetNum then
    ({ g with flags := setFlag (clearFlag g.flags sessionCanSend) sessionSending }, true)
  else (g, false)

/-- session_rs_continue -/
def rsContinue (type : TaskType) (g : SessionS) : SessionS × Bool :=
  let again := !isClosed g && hasFlag g.flags type.testBit
  let flags := clearFlag g.flags (type.statusBit ||| type.testBit)
  ({ g with flags := if again then setFlag flags type.statusBit else flags }, again)

/-- The section of session_recv_event, and `cant_read`. -/
def recvEvent (g : SessionS) : SessionS × Bool :=
  if isClosed g then (g, false)
  else
    let cantRead := hasFlag g.flags sessionRecving
    ({ g with
        flags := setFlag g.flags (sessionRecving ||| if cantRead then sessionCanRecv else 0)
        arrived := g.arrived || cantRead }, cantRead)

/-- The section of session_send_event. -/
def sendEvent (g : SessionS) : SessionS × Bool :=
  if isClosed g then (g, false)
  else tryStartSendTask { g with flags := setFlag g.flags sessionCanSend }

/-- The section of session_send, and whether it took a packet. The flags that it clears and sets are
those of a stream: STREAM_CAN_SEND is SESSION_RECVING, and STREAM_SENDING is SESSION_SENDING. -/
def nextPacket (decPacket : Bool) (g : SessionS) : SessionS × Bool :=
  let packetNum := g.packetNum - if decPacket then 1 else 0
  if isClosed g = false ∧ 0 < packetNum then
    ({ g with
        packetNum := packetNum
        flags := clearFlag g.flags streamCanSend }, true)
  else
    ({ g with
        packetNum := packetNum
        flags := clearFlag (setFlag g.flags streamCanSend) streamSending }, false)

/-- A task ends without another turn. -/
def ends (type : TaskType) (g : SessionS) : SessionS :=
  { g with missed := g.missed || (decide (type = .recv) && g.arrived && !isClosed g) }

def start (e : Request) (g : SessionS) : Option (SessionS × Local) :=
  match e with
  | .recvEvent => some (g, .recvEvent)
  | .sendEvent => some (g, .sendEvent)
  | .addPacket n => some (g, .addPacket n)

/-- A turn of the loop of session_recv or session_send. -/
def turn (a : Answer) (g : SessionS) (type : TaskType) (decPacket : Bool) :
    Option (SessionS × Local) :=
  let tried := { g with arrived := g.arrived && decide (type ≠ .recv) }
  match a.turn with
  | .full => some (tried, .loop type decPacket)
  | .short => some (tried, .rsContinue type decPacket)
  | .failed => some (tried, .leave type true)
  | .work ended => some (g, .loop type (decPacket || ended))
  | .tryAgain =>
    if type = .recv then some (g, if a.timer then .timer type else .leave type true) else none
  | .error => some (g, .leave type true)
  | .next => if type = .send then some (g, .next decPacket) else none

def step (a : Answer) (g : SessionS) : Local → Option (SessionS × Local)
  | .recvEvent =>
    let r := recvEvent g
    some (r.1, if r.2 then .done else .start .recv true a.put)
  | .sendEvent =>
    let r := sendEvent g
    some (r.1, if r.2 then .start .send true a.put else .done)
  | .addPacket n =>
    let r := tryStartSendTask { g with packetNum := g.packetNum + n }
    some (r.1, if r.2 then .start .send false a.put else .done)
  | .start type withTimer put =>
    if put then some (g, .task type)
    else if withTimer then some (g, if a.timer then .timer type else .leave type true)
    else some (ends type g, .done)
  | .timer type => some (g, .start type true a.put)
  | .task type =>
    if isClosed g = true ∨ g.pIo = false then some (ends type g, .done)
    else some (g, .point type a.point)
  | .point type ret =>
    if ret then some (g, .loop type false) else some (ends type g, .leave type false)
  | .loop type decPacket =>
    if isClosed g then some (g, .leave type false) else turn a g type decPacket
  | .rsContinue type decPacket =>
    let r := rsContinue type g
    some (if r.2 then (r.1, .loop type decPacket) else (ends type r.1, .leave type false))
  | .next decPacket =>
    let r := nextPacket decPacket g
    some (if r.2 then (r.1, .loop .send true) else (ends .send r.1, .leave .send false))
  | .leave _ goaway =>
    some ({ g with flags := setFlag g.flags (if goaway then sessionGoawayRecv else 0) }, .done)
  | .done => none

def protocol : Program SessionS Local Request Answer := ⟨start, step⟩

/-- A task of the type that is scheduled or runs. -/
def live (type : TaskType) : Local → Nat
  | .start type' _ _ => if type' = type then 1 else 0
  | .timer type' => if type' = type then 1 else 0
  | .task type' => if type' = type then 1 else 0
  | .point type' _ => if type' = type then 1 else 0
  | .loop type' _ => if type' = type then 1 else 0
  | .rsContinue type' _ => if type' = type then 1 else 0
  | .next _ => if .send = type then 1 else 0
  | .leave type' goaway => if type' = type ∧ goaway = true then 1 else 0
  | _ => 0

attribute [simp] live

def busy (type : TaskType) (g : SessionS) : Bool := hasFlag g.flags type.statusBit

/-- While the session is open each of the two flags says whether the one task is there, and the
receive task does not end before it has tried another recv for each event. -/
structure Sound (c : Config SessionS Local) : Prop where
  flags : isClosed c.shared = false → ∀ type, busy type c.shared = true ↔ c.total (live type) = 1
  once : isClosed c.shared = false → ∀ type, c.total (live type) ≤ 1
  seen : c.shared.missed = false

/-- session_send finds a packet behind those that it has sent. -/
def HasPacket (decPacket : Bool) (g : SessionS) : Prop :=
  0 < g.packetNum - if decPacket then 1 else 0

/-- In an open session: a task that is put in the pool without a timer gets in, the first section
finds an io and get_other_point_ref its other end, and session_send takes a packet while there is
no receive task, and finds that there is none left while there is one. -/
def CleanStep (c : Config SessionS Local) (l : Local) : Prop :=
  isClosed c.shared = false → match l with
    | .start _ withTimer put => withTimer = true ∨ put = true
    | .task _ => c.shared.pIo = true
    | .point _ ret => ret = true
    | .next decPacket => busy .recv c.shared = true ↔ ¬ HasPacket decPacket c.shared
    | _ => True

/-- An open session without tasks. -/
def opened (pIo : Bool) (packetNum : Int) : Config SessionS Local :=
  ⟨⟨0, pIo, packetNum, false, false⟩, []⟩

/-- The receive task has tried a recv, and asks now whether there was an event. -/
def asking : Local → Nat
  | .rsContinue .recv _ => 1
  | _ => 0

structure Inv (c : Config SessionS Local) : Prop where
  counts : isClosed c.shared = false → ∀ type,
    c.total (live type) = (busy type c.shared).toNat
  seen : c.shared.missed = false
  served : isClosed c.shared = false → 0 < c.total asking → c.shared.arrived = true →
    hasFlag c.shared.flags sessionCanRecv = true

theorem Inv.sound {c : Config SessionS Local} (inv : Inv c) : Sound c := by
  refine ⟨?_, ?_, inv.seen⟩
  · intro opened type
    rw [inv.counts opened type]
    cases busy type c.shared with
    | true => simp
    | false => simp
  · intro opened type
    rw [inv.counts opened type]
    cases busy type c.shared with
    | true => simp
    | false => simp

section flags
variable (f : Flags) (type : TaskType)

theorem recvEvent_flags (cantRead : Bool) :
    let f' := setFlag f (sessionRecving ||| if cantRead then sessionCanRecv else 0)
    hasFlag f' sessionRecving = true ∧ hasFlag f' sessionSending = hasFlag f sessionSending ∧
      hasFlag f' sessionGoawayRecv = hasFlag f sessionGoawayRecv ∧
      hasFlag f' sessionCanRecv = (hasFlag f sessionCanRecv || cantRead) := by
  cases cantRead with
  | true =>
    have canRecv : hasFlag (setFlag f (sessionRecving ||| sessionCanRecv)) sessionCanRecv = true :=
      setFlag_has rfl
    exact ⟨setFlag_has rfl, setFlag_apart rfl, setFlag_apart rfl,
      canRecv.trans (Bool.or_true _).symm⟩
  | false =>
    have canRecv : hasFlag (setFlag f (sessionRecving ||| 0)) sessionCanRecv =
        hasFlag f sessionCanRecv := setFlag_apart rfl
    exact ⟨setFlag_has rfl, setFlag_apart rfl, setFlag_apart rfl,
      canRecv.trans (Bool.or_false _).symm⟩

theorem canSend_flags :
    let f' := setFlag f sessionCanSend
    hasFlag f' sessionRecving = hasFlag f sessionRecving ∧
      hasFlag f' sessionSending = hasFlag f sessionSending ∧
      hasFlag f' sessionGoawayRecv = hasFlag f sessionGoawayRecv ∧
      hasFlag f' sessionCanRecv = hasFlag f sessionCanRecv :=
  ⟨setFlag_apart rfl, setFlag_apart rfl, setFlag_apart rfl, setFlag_apart rfl⟩

theorem startSend_flags :
    let f' := setFlag (clearFlag f sessionCanSend) sessionSending
    hasFlag f' sessionRecving = hasFlag f sessionRecving ∧ hasFlag f' sessionSending = true ∧
      hasFlag f' sessionGoawayRecv = hasFlag f sessionGoawayRecv ∧
      hasFlag f' sessionCanRecv = hasFlag f sessionCanRecv ∧
      (f &&& (sessionSending ||| sessionCanSend) = sessionCanSend →
        hasFlag f sessionSending = false) := by
  refine ⟨(setFlag_apart rfl).trans (clearFlag_apart rfl), setFlag_has rfl,
    (setFlag_apart rfl).trans (clearFlag_apart rfl),
    (setFlag_apart rfl).trans (clearFlag_apart rfl), fun can => ?_⟩
  have none : f &&& sessionSending = 0 := by
    have part : f &&& (sessionSending ||| sessionCanSend) &&& sessionSending =
        f &&& sessionSending := BitVec.and_assoc _ _ _
    rw [← part, can]
    rfl
  rw [hasFlag, none]
  rfl

/-- Flags that are cleared, and one of them set again. -/
theorem again_apart {cleared given kept : Flags} (again : Bool) (outside : cleared &&& kept = 0)
    (other : given &&& kept = 0) :
    hasFlag (if again then setFlag (clearFlag f cleared) given else clearFlag f cleared) kept =
      hasFlag f kept := by
  cases again with
  | true => exact (setFlag_apart other).trans (clearFlag_apart outside)
  | false => exact clearFlag_apart outside

theorem again_given {cleared given : Flags} (again : Bool) (within : cleared &&& given = given)
    (some : given ≠ 0) :
    hasFlag (if again then setFlag (clearFlag f cleared) given else clearFlag f cleared) given =
      again := by
  cases again with
  | true => exact setFlag_has BitVec.and_self
  | false => exact clearFlag_lacks within some

theorem rsContinue_flags (again : Bool) :
    let f' := clearFlag f (type.statusBit ||| type.testBit)
    let f' := if again then setFlag f' type.statusBit else f'
    hasFlag f' type.statusBit = again ∧
      hasFlag f' sessionGoawayRecv = hasFlag f sessionGoawayRecv ∧
      (type = .send → hasFlag f' sessionRecving = hasFlag f sessionRecving ∧
        hasFlag f' sessionCanRecv = hasFlag f sessionCanRecv) ∧
      (type = .recv → hasFlag f' sessionSending = hasFlag f sessionSending) := by
  cases type with
  | recv =>
    refine ⟨again_given f again rfl (by decide), again_apart f again rfl rfl, fun wrong => ?_,
      fun _ => again_apart f again rfl rfl⟩
    cases wrong
  | send =>
    refine ⟨again_given f again rfl (by decide), again_apart f again rfl rfl,
      fun _ => ⟨again_apart f again rfl rfl, again_apart f again rfl rfl⟩, fun wrong => ?_⟩
    cases wrong

/-- The section of session_send that takes a packet, where SESSION_RECVING is clear. -/
theorem takePacket_flags (clear : hasFlag f sessionRecving = false) :
    clearFlag f streamCanSend = f := by
  revert f
  decide +kernel

/-- The one that finds no packet, where SESSION_RECVING is set. -/
theorem noPacket_flags :
    let f' := clearFlag (setFlag f streamCanSend) streamSending
    hasFlag f' sessionRecving = true ∧ hasFlag f' sessionSending = false ∧
      hasFlag f' sessionGoawayRecv = hasFlag f sessionGoawayRecv ∧
      hasFlag f' sessionCanRecv = hasFlag f sessionCanRecv :=
  ⟨(clearFlag_apart rfl).trans (setFlag_has rfl), clearFlag_lacks rfl (by decide),
    (clearFlag_apart rfl).trans (setFlag_apart rfl),
    (clearFlag_apart rfl).trans (setFlag_apart rfl)⟩

theorem noFlags : busy type ⟨0, pIo, packetNum, false, false⟩ = false := by
  cases type with
  | recv => exact (by decide : hasFlag 0 sessionRecving = false)
  | send => exact (by decide : hasFlag 0 sessionSending = false)

theorem nextPacket_flags :
    hasFlag (clearFlag f streamCanSend) sessionGoawayRecv = hasFlag f sessionGoawayRecv ∧
      hasFlag (clearFlag (setFlag f streamCanSend) streamSending) sessionGoawayRecv =
        hasFlag f sessionGoawayRecv :=
  ⟨clearFlag_apart rfl, (clearFlag_apart rfl).trans (setFlag_apart rfl)⟩

theorem leave_flags :
    hasFlag (setFlag f sessionGoawayRecv) sessionGoawayRecv = true ∧ setFlag f 0 = f :=
  ⟨setFlag_has rfl, BitVec.or_zero⟩

end flags

theorem asking_le_live (l : Local) : asking l ≤ live .recv l := by
  cases l with
  | rsContinue type decPacket =>
    cases type with
    | recv => exact Nat.le_refl 1
    | send => exact Nat.zero_le _
  | _ => exact Nat.zero_le _

section steps
variable {g g' : SessionS} {l l' : Local} {pre post : List Local}

/-- What a step of one call owes, the others being what they were. -/
theorem Inv.next (inv : Inv ⟨g, pre ++ l :: post⟩)
    (closed : isClosed g' = false → isClosed g = false) (seen : g'.missed = false)
    (counts : isClosed g' = false → ∀ type,
      live type l' + (busy type g).toNat = live type l + (busy type g').toNat)
    (asks : isClosed g' = false → 0 < asking l' → g'.arrived = true →
      hasFlag g'.flags sessionCanRecv = true)
    (event : isClosed g' = false → live .recv l = 0 →
      (g.arrived = true → hasFlag g.flags sessionCanRecv = true) → g'.arrived = true →
        hasFlag g'.flags sessionCanRecv = true) : Inv ⟨g', pre ++ l' :: post⟩ := by
  constructor
  · intro opened type
    have before := inv.counts (closed opened) type
    have delta := counts opened type
    rw [total_split] at before ⊢
    dsimp only at before ⊢
    omega
  · exact seen
  · intro opened some arrived
    rw [total_split] at some
    by_cases own : 0 < asking l'
    · exact asks opened own arrived
    · have other : 0 < others asking pre post := by omega
      have more := others_mono pre post asking_le_live
      have before := inv.counts (closed opened) .recv
      rw [total_split] at before
      have one : (busy .recv g).toNat ≤ 1 := Bool.toNat_le _
      apply event opened (by dsimp only at before; omega) ?_ arrived
      intro came
      apply inv.served (closed opened) ?_ came
      rw [total_split]
      omega

/-- A step that leaves the session as it is. -/
theorem Inv.same (inv : Inv ⟨g, pre ++ l :: post⟩)
    (lives : isClosed g = false → ∀ type, live type l' = live type l)
    (quiet : isClosed g = false → asking l' = 0) : Inv ⟨g, pre ++ l' :: post⟩ := by
  apply inv.next id inv.seen
  · intro opened type
    rw [lives opened]
  · intro opened some
    rw [quiet opened] at some
    contradiction
  · intro _ _ kept
    exact kept

/-- What try_start_send_task does. -/
theorem tryStart_spec (g : SessionS) :
    (tryStartSendTask g).1.missed = g.missed ∧ (tryStartSendTask g).1.arrived = g.arrived ∧
      isClosed (tryStartSendTask g).1 = isClosed g ∧
      busy .recv (tryStartSendTask g).1 = busy .recv g ∧
      hasFlag (tryStartSendTask g).1.flags sessionCanRecv = hasFlag g.flags sessionCanRecv ∧
      (tryStartSendTask g).2.toNat + (busy .send g).toNat =
        (busy .send (tryStartSendTask g).1).toNat := by
  have flags := startSend_flags g.flags
  rw [tryStartSendTask]
  split
  next can =>
    obtain ⟨recving, sending, goaway, canRecv, idle⟩ := flags
    refine ⟨rfl, rfl, goaway, recving, canRecv, ?_⟩
    have before : busy .send g = false := idle can.1
    have after : hasFlag (setFlag (clearFlag g.flags sessionCanSend) sessionSending)
      TaskType.send.statusBit = true := sending
    rw [before, busy, after]
    rfl
  next => exact ⟨rfl, rfl, rfl, rfl, rfl, Nat.zero_add _⟩

/-- A section that ends in try_start_send_task. -/
theorem Inv.starts (inv : Inv ⟨g, pre ++ l :: post⟩) (fresh : ∀ type, live type l = 0)
    {h : SessionS} (missed : h.missed = g.missed) (arrived : h.arrived = g.arrived)
    (closed : isClosed h = isClosed g) (tasks : ∀ type, busy type h = busy type g)
    (canRecv : hasFlag h.flags sessionCanRecv = hasFlag g.flags sessionCanRecv)
    (withTimer put : Bool) :
    Inv ⟨(tryStartSendTask h).1,
      pre ++ (if (tryStartSendTask h).2 then .start .send withTimer put else .done) :: post⟩ := by
  obtain ⟨missed', arrived', closed', recving, canRecv', sending⟩ := tryStart_spec h
  apply inv.next
  · intro opened
    rw [← closed, ← closed']
    exact opened
  · rw [missed', missed]
    exact inv.seen
  · intro _ type
    rw [fresh]
    cases type with
    | recv =>
      rw [recving, tasks]
      cases (tryStartSendTask h).2 with
      | true => rfl
      | false => rfl
    | send =>
      rw [← sending, ← tasks]
      cases (tryStartSendTask h).2 with
      | true => simp [live]
      | false => simp [live]
  · intro _ some
    split at some
    · contradiction
    · contradiction
  · intro _ _ kept came
    rw [canRecv', canRecv]
    apply kept
    rw [← arrived, ← arrived']
    exact came

/-- A task that runs in an open session has its flag. -/
theorem Inv.busy_of_live (inv : Inv ⟨g, pre ++ l :: post⟩) (opened : isClosed g = false)
    {type : TaskType} (here : live type l = 1) : busy type g = true := by
  have count := inv.counts opened type
  rw [total_split, here] at count
  dsimp only at count
  cases set : busy type g with
  | true => rfl
  | false =>
    rw [set, Bool.toNat_false] at count
    omega

/-- A task may end when the session is closed or there was no event since its last recv. -/
theorem ends_missed {type : TaskType} (seen : g.missed = false)
    (quiet : isClosed g = false → type = .recv → g.arrived = false) :
    (ends type g).missed = false := by
  rw [ends, seen]
  cases closed : isClosed g with
  | true => simp
  | false =>
    cases type with
    | recv => simp [quiet closed rfl]
    | send => rfl

/-- In a closed session nothing is owed but `missed`. -/
theorem Inv.closed (closed : isClosed g' = true) (seen : g'.missed = false) (calls : List Local) :
    Inv ⟨g', calls⟩ := by
  constructor
  · intro opened
    rw [closed] at opened
    contradiction
  · exact seen
  · intro opened
    rw [closed] at opened
    contradiction

theorem Inv.keeps_recvEvent (inv : Inv ⟨g, pre ++ .recvEvent :: post⟩) (put : Bool) :
    Inv ⟨(recvEvent g).1,
      pre ++ (if (recvEvent g).2 then .done else .start .recv true put) :: post⟩ := by
  rw [Tasks.recvEvent]
  cases closed : isClosed g with
  | true => exact Inv.closed closed inv.seen _
  | false =>
    simp only [Bool.false_eq_true, if_false]
    obtain ⟨recving, sending, goaway, canRecv⟩ :=
      recvEvent_flags g.flags (hasFlag g.flags sessionRecving)
    apply inv.next
    · intro _
      exact closed
    · exact inv.seen
    · intro _ type
      cases type with
      | recv =>
        simp only [busy, TaskType.statusBit, recving]
        cases hasFlag g.flags sessionRecving with
        | true => rfl
        | false => rfl
      | send =>
        simp only [busy, TaskType.statusBit, sending]
        cases hasFlag g.flags sessionRecving with
        | true => rfl
        | false => rfl
    · intro _ some
      split at some
      · contradiction
      · contradiction
    · intro _ _ kept came
      simp only [Bool.or_eq_true] at came
      simp only [canRecv, Bool.or_eq_true]
      exact came.imp_left kept

/-- session_rs_continue: an event that came since the last recv has set SESSION_CAN_RECV. -/
theorem Inv.keeps_rsContinue {type : TaskType} {decPacket : Bool}
    (inv : Inv ⟨g, pre ++ .rsContinue type decPacket :: post⟩) :
    Inv ⟨if (rsContinue type g).2 then (rsContinue type g).1 else ends type (rsContinue type g).1,
      pre ++ (if (rsContinue type g).2 then .loop type decPacket else .leave type false) ::
        post⟩ := by
  obtain ⟨status, goaway, send, recv⟩ :=
    rsContinue_flags g.flags type (!isClosed g && hasFlag g.flags type.testBit)
  have kept : isClosed (rsContinue type g).1 = isClosed g := goaway
  have own : busy type (rsContinue type g).1 = (rsContinue type g).2 := status
  cases closed : isClosed g with
  | true =>
    have stop : (rsContinue type g).2 = false := by
      rw [Tasks.rsContinue, closed]
      rfl
    rw [stop, if_neg Bool.false_ne_true]
    apply Inv.closed
    · exact kept.trans closed
    · apply ends_missed (g := (rsContinue type g).1) inv.seen
      intro opened
      rw [kept, closed] at opened
      contradiction
  | false =>
    have before : busy type g = true := inv.busy_of_live closed (by simp [live])
    have counts : ∀ type' : TaskType,
        live type' (if (rsContinue type g).2 then .loop type decPacket else .leave type false) +
          (busy type' g).toNat = live type' (.rsContinue type decPacket) +
            (busy type' (rsContinue type g).1).toNat := by
      intro type'
      by_cases same : type = type'
      · subst same
        rw [before, own]
        cases (rsContinue type g).2 with
        | true => rfl
        | false => simp [live]
      · have other : busy type' (rsContinue type g).1 = busy type' g := by
          cases type with
          | recv =>
            cases type' with
            | recv => exact absurd rfl same
            | send => exact recv rfl
          | send =>
            cases type' with
            | recv => exact (send rfl).1
            | send => exact absurd rfl same
        rw [other]
        cases (rsContinue type g).2 with
        | true => simp [live]
        | false => simp [live, same]
    have event : live .recv (.rsContinue type decPacket) = 0 →
        hasFlag (rsContinue type g).1.flags sessionCanRecv = hasFlag g.flags sessionCanRecv := by
      cases type with
      | recv =>
        intro none
        cases none
      | send =>
        intro _
        exact (send rfl).2
    cases again : (rsContinue type g).2 with
    | true =>
      rw [again] at counts
      rw [if_pos rfl]
      apply inv.next
      · exact fun _ => closed
      · exact inv.seen
      · exact fun _ => counts
      · intro _ some
        contradiction
      · intro _ none served came
        exact (event none).trans (served came)
    | false =>
      rw [again] at counts
      rw [if_neg Bool.false_ne_true]
      apply inv.next
      · exact fun _ => closed
      · apply ends_missed (g := (rsContinue type g).1) inv.seen
        intro opened same
        subst same
        -- an event that came would have set the flag that this section found clear
        cases came : (rsContinue .recv g).1.arrived with
        | false => rfl
        | true =>
          have asked : 0 < Config.total asking ⟨g, pre ++ .rsContinue .recv decPacket :: post⟩ := by
            rw [total_split]
            simp [asking]
          have set := inv.served closed asked came
          simp only [Tasks.rsContinue, closed, Bool.not_false, Bool.true_and] at again
          exact absurd set (by rw [TaskType.testBit] at again; simp [again])
      · exact fun _ => counts
      · intro _ some
        contradiction
      · intro _ none served came
        exact (event none).trans (served came)

theorem nextPacket_takes {decPacket : Bool} (found : isClosed g = false ∧ HasPacket decPacket g) :
    nextPacket decPacket g =
      ({ g with
          packetNum := g.packetNum - if decPacket then 1 else 0
          flags := clearFlag g.flags streamCanSend }, true) :=
  if_pos found

theorem nextPacket_stops {decPacket : Bool}
    (none : ¬ (isClosed g = false ∧ HasPacket decPacket g)) :
    nextPacket decPacket g =
      ({ g with
          packetNum := g.packetNum - if decPacket then 1 else 0
          flags := clearFlag (setFlag g.flags streamCanSend) streamSending }, false) :=
  if_neg none

/-- session_send takes a packet. -/
theorem Inv.keeps_take {decPacket : Bool} (inv : Inv ⟨g, pre ++ .next decPacket :: post⟩)
    (clean : isClosed g = false → (busy .recv g = true ↔ ¬ HasPacket decPacket g))
    (takes : (nextPacket decPacket g).2 = true) :
    Inv ⟨(nextPacket decPacket g).1, pre ++ .loop .send true :: post⟩ := by
  by_cases found : isClosed g = false ∧ HasPacket decPacket g
  · have idle : busy .recv g = false := by
      rw [← Bool.not_eq_true, clean found.1]
      exact fun none => none found.2
    have same := takePacket_flags g.flags idle
    rw [nextPacket_takes found]
    dsimp only
    rw [same]
    apply inv.next
    · exact id
    · exact inv.seen
    · intro _ type
      rfl
    · intro _ some
      contradiction
    · intro _ _ served
      exact served
  · rw [nextPacket_stops found] at takes
    contradiction

/-- session_send finds no packet. -/
theorem Inv.keeps_stop {decPacket : Bool} (inv : Inv ⟨g, pre ++ .next decPacket :: post⟩)
    (clean : isClosed g = false → (busy .recv g = true ↔ ¬ HasPacket decPacket g))
    (stops : (nextPacket decPacket g).2 = false) :
    Inv ⟨ends .send (nextPacket decPacket g).1, pre ++ .leave .send false :: post⟩ := by
  have none : ¬ (isClosed g = false ∧ HasPacket decPacket g) := by
    intro found
    rw [nextPacket_takes found] at stops
    contradiction
  rw [nextPacket_stops none]
  have goaway := (nextPacket_flags g.flags).2
  cases closed : isClosed g with
  | true =>
    apply Inv.closed
    · exact goaway.trans closed
    · exact (Bool.or_false _).trans inv.seen
  | false =>
    have here := (clean closed).mpr fun found => none ⟨closed, found⟩
    obtain ⟨recving, sending, _, canRecv⟩ := noPacket_flags g.flags
    have before : busy .send g = true := inv.busy_of_live closed rfl
    apply inv.next
    · exact fun _ => closed
    · exact (Bool.or_false _).trans inv.seen
    · intro _ type
      cases type with
      | recv =>
        rw [here, busy, ends, TaskType.statusBit, recving]
        rfl
      | send =>
        rw [before, busy, ends, TaskType.statusBit, sending]
        rfl
    · intro _ some
      contradiction
    · intro _ _ served came
      rw [ends, canRecv]
      exact served came

/-- A turn of a loop in an open session. -/
theorem Inv.keeps_turn {a : Answer} {type : TaskType} {decPacket : Bool}
    (inv : Inv ⟨g, pre ++ .loop type decPacket :: post⟩)
    (acted : turn a g type decPacket = some (g', l')) : Inv ⟨g', pre ++ l' :: post⟩ := by
  -- a recv has been tried, so no event is open; a send leaves it
  have tried : ∀ {l' : Local}, (∀ type', live type' l' = live type' (.loop type decPacket)) →
      Inv ⟨{ g with arrived := g.arrived && decide (type ≠ .recv) }, pre ++ l' :: post⟩ := by
    intro l' lives
    have after : ∀ {b : Bool}, live .recv (.loop type decPacket) = b.toNat → b = false →
        (g.arrived && decide (type ≠ .recv)) = g.arrived := by
      rintro b none rfl
      cases type with
      | recv => cases none
      | send => exact Bool.and_true _
    apply inv.next
    · exact id
    · exact inv.seen
    · intro _ type'
      rw [lives]
      rfl
    · intro _ some came
      have recv : type = .recv := by
        have own := asking_le_live l'
        rw [lives] at own
        cases type with
        | recv => rfl
        | send =>
          simp only [live, reduceCtorEq, if_false] at own
          omega
      subst recv
      simp at came
    · intro _ none served came
      rw [after (b := false) none rfl] at came
      exact served came
  rw [turn] at acted
  split at acted
  · cases acted
    exact tried fun _ => rfl
  · cases acted
    exact tried fun _ => rfl
  · cases acted
    apply tried
    intro type'
    simp [live]
  · cases acted
    apply inv.same
    · exact fun _ _ => rfl
    · exact fun _ => rfl
  · split at acted
    · cases acted
      apply inv.same
      · intro _ type'
        split
        · rfl
        · simp [live]
      · intro _
        split
        · rfl
        · rfl
    · contradiction
  · cases acted
    apply inv.same
    · intro _ type'
      simp [live]
    · exact fun _ => rfl
  · split at acted
    next send =>
      cases acted
      subst send
      apply inv.same
      · exact fun _ _ => rfl
      · exact fun _ => rfl
    next => contradiction

theorem step_keeps {a : Answer} (inv : Inv ⟨g, pre ++ l :: post⟩)
    (clean : CleanStep ⟨g, pre ++ l :: post⟩ l) (acted : step a g l = some (g', l')) :
    Inv ⟨g', pre ++ l' :: post⟩ := by
  -- a task that ends here is one of a closed session
  have stops : ∀ {type : TaskType} {l' : Local}, isClosed g = true →
      Inv ⟨ends type g, pre ++ l' :: post⟩ := by
    intro type l' closed
    apply Inv.closed
    · exact closed
    · apply ends_missed inv.seen
      intro opened
      rw [closed] at opened
      contradiction
  cases l with
  | recvEvent =>
    cases acted
    exact inv.keeps_recvEvent a.put
  | sendEvent =>
    rw [step, sendEvent] at acted
    cases closed : isClosed g with
    | true =>
      simp only [closed, if_true] at acted
      cases acted
      exact Inv.closed closed inv.seen _
    | false =>
      simp only [closed, Bool.false_eq_true, if_false] at acted
      cases acted
      obtain ⟨recving, sending, goaway, canRecv⟩ := canSend_flags g.flags
      apply inv.starts
      · exact fun _ => rfl
      · rfl
      · rfl
      · exact goaway
      · intro type
        cases type with
        | recv => exact recving
        | send => exact sending
      · exact canRecv
  | addPacket n =>
    cases acted
    apply inv.starts
    · exact fun _ => rfl
    · rfl
    · rfl
    · rfl
    · exact fun _ => rfl
    · rfl
  | start type withTimer put =>
    rw [step] at acted
    split at acted
    · cases acted
      apply inv.same
      · exact fun _ _ => rfl
      · exact fun _ => rfl
    · split at acted
      · cases acted
        apply inv.same
        · intro _ type'
          split
          · rfl
          · simp [live]
        · intro _
          split
          · rfl
          · rfl
      · cases acted
        apply stops
        rename_i unput untimed
        rw [← Bool.not_eq_false]
        intro opened
        rcases clean opened with timed | put
        · exact untimed timed
        · exact unput put
  | timer type =>
    cases acted
    apply inv.same
    · exact fun _ _ => rfl
    · exact fun _ => rfl
  | task type =>
    rw [step] at acted
    split at acted
    · cases acted
      apply stops
      rename_i enters
      rw [← Bool.not_eq_false]
      intro opened
      rcases enters with closed | none
      · rw [opened] at closed
        contradiction
      · rw [clean opened] at none
        contradiction
    · cases acted
      apply inv.same
      · exact fun _ _ => rfl
      · exact fun _ => rfl
  | point type ret =>
    rw [step] at acted
    split at acted
    · cases acted
      apply inv.same
      · exact fun _ _ => rfl
      · exact fun _ => rfl
    · cases acted
      apply stops
      rename_i fails
      rw [← Bool.not_eq_false]
      exact fun opened => fails (clean opened)
  | loop type decPacket =>
    rw [step] at acted
    split at acted
    · cases acted
      rename_i closed
      exact Inv.closed closed inv.seen _
    · exact inv.keeps_turn acted
  | rsContinue type decPacket =>
    have kept := inv.keeps_rsContinue
    rw [step] at acted
    cases again : (rsContinue type g).2 with
    | true =>
      simp only [again, if_true] at acted kept
      cases acted
      exact kept
    | false =>
      simp only [again, Bool.false_eq_true, if_false] at acted kept
      cases acted
      exact kept
  | next decPacket =>
    rw [step] at acted
    cases takes : (nextPacket decPacket g).2 with
    | true =>
      simp only [takes, if_true] at acted
      cases acted
      exact inv.keeps_take clean takes
    | false =>
      simp only [takes, Bool.false_eq_true, if_false] at acted
      cases acted
      exact inv.keeps_stop clean takes
  | leave type goaway =>
    cases acted
    obtain ⟨marked, same⟩ := leave_flags g.flags
    cases goaway with
    | true =>
      apply Inv.closed
      · exact marked
      · exact inv.seen
    | false =>
      rw [if_neg Bool.false_ne_true, same]
      apply inv.same
      · intro _ type'
        simp [live]
      · exact fun _ => rfl
  | done => cases acted

theorem start_keeps {e : Request} {ls : List Local} (inv : Inv ⟨g, ls⟩)
    (entered : start e g = some (g', l)) : Inv ⟨g', ls ++ [l]⟩ := by
  have fresh : g' = g ∧ (∀ type, live type l = 0) ∧ asking l = 0 := by
    cases e with
    | recvEvent | sendEvent | addPacket =>
      cases entered
      exact ⟨rfl, fun _ => rfl, rfl⟩
  obtain ⟨rfl, lives, quiet⟩ := fresh
  constructor
  · intro opened type
    rw [total_start (live type) g' g', lives]
    exact inv.counts opened type
  · exact inv.seen
  · rw [total_start asking g' g', quiet]
    exact inv.served

end steps

/-- The flags stand for the tasks as long as no task is lost in an open session, and session_send,
which clears and sets SESSION_RECVING, meets it in the state that it writes. -/
theorem flags_are_tasks (pIo : Bool) (packetNum : Int) {c : Config SessionS Local}
    (run : protocol.ReachesWhere CleanStep (opened pIo packetNum) c) : Sound c := by
  apply Inv.sound
  refine Program.ReachesWhere.invariant ?_ ?_ ?_ run
  · constructor
    · intro _ type
      rw [opened, noFlags]
      rfl
    · rfl
    · intro _ some
      contradiction
  · intro e g g' l ls inv entered
    exact start_keeps inv entered
  · intro a g g' l l' pre post inv clean acted
    exact step_keeps inv clean acted

section example_sessions

instance (c : Config SessionS Local) : (l : Local) → Decidable (CleanStep c l)
  | .start _ withTimer put =>
    inferInstanceAs (Decidable (isClosed c.shared = false → withTimer = true ∨ put = true))
  | .task _ => inferInstanceAs (Decidable (isClosed c.shared = false → c.shared.pIo = true))
  | .point _ ret => inferInstanceAs (Decidable (isClosed c.shared = false → ret = true))
  | .next decPacket =>
    inferInstanceAs (Decidable (isClosed c.shared = false → (busy .recv c.shared = true ↔
      ¬ 0 < c.shared.packetNum - if decPacket then 1 else 0)))
  | .recvEvent | .sendEvent | .addPacket _ | .timer _ | .loop _ _ | .rsContinue _ _
  | .leave _ _ | .done => inferInstanceAs (Decidable (isClosed c.shared = false → True))

def answer (turn : Turn) : Answer := ⟨true, true, true, turn⟩

/-- One task runs to its first turns. -/
def enters (i : Nat) : List (Request ⊕ Nat × Answer) := Program.turns i 4 (answer .full)

/-- A receive task, an event while it runs, and a send task. -/
def eventWhileReceiving : List (Request ⊕ Nat × Answer) :=
  List.flatten [[.inl .recvEvent], enters 0,
    [.inl .recvEvent, .inr (1, answer .full), .inr (0, answer .short), .inr (0, answer .full),
      .inl .sendEvent, .inr (2, answer .full), .inl (.addPacket 1)],
    enters 3]

/-- Both tasks run, and the receive task has seen the event. -/
theorem event_seen : ∃ c : Config SessionS Local, Sound c ∧ isClosed c.shared = false ∧
    c.calls = [.loop .recv false, .done, .done, .loop .send false] := by
  have executed : ((protocol.execWhere (fun c l => decide (CleanStep c l)) eventWhileReceiving
      (opened true 0)).map fun c => (isClosed c.shared, c.calls)) =
        some (false, [.loop .recv false, .done, .done, .loop .send false]) := rfl
  obtain ⟨c, done, parts⟩ := Option.map_eq_some_iff.mp executed
  have run : protocol.ReachesWhere CleanStep (opened true 0) c := by
    apply Relation.ReflTransGen.mono ?_ _ _ (Program.execWhere_reaches done)
    intro c c' taken
    cases taken with
    | start entered => exact .start entered
    | step met acted => exact .step (of_decide_eq_true met) acted
  simp only [Prod.mk.injEq] at parts
  exact ⟨c, flags_are_tasks true 0 run, parts.1, parts.2⟩

/-- A send task has sent the only packet and ends. -/
def sendsOne : List (Request ⊕ Nat × Answer) :=
  List.flatten [[.inl .sendEvent, .inr (0, answer .full), .inl (.addPacket 1)], enters 1,
    Program.turns 1 4 (answer .next)]

/-- It leaves SESSION_RECVING set, and no task receives. -/
theorem recving_left : ∃ c : Config SessionS Local,
    protocol.Reaches (opened true 0) c ∧ ¬ Sound c := by
  have executed : ((protocol.exec (fun _ => True) sendsOne (opened true 0)).map fun c =>
      (isClosed c.shared, busy .recv c.shared, c.calls)) =
        some (false, true, [.done, .leave .send false]) := rfl
  obtain ⟨c, done, parts⟩ := Option.map_eq_some_iff.mp executed
  simp only [Prod.mk.injEq] at parts
  obtain ⟨opened, here, calls⟩ := parts
  refine ⟨c, (Program.exec_reaches done).reaches, ?_⟩
  intro sound
  have one := (sound.flags opened .recv).mp here
  rw [Config.total, calls] at one
  cases one

end example_sessions

end MoonInWater.Session.Tasks
