import MoonInWater.Lib.CInt
import MoonInWater.Lib.Jobs
import Mathlib.Data.List.FinRange

/-! The close of a stream: stream_local_close and stream_remote_close, which share out what the
stream holds, and stream_close_func. -/
namespace MoonInWater.Session.StreamClose
open CInt Threads Jobs

/-- stream_status_e -/
inductive Status where
  | initial
  | synRecv
  | synSend
  | synreplyRs
  | rstRecv
  | shutRecv
  | rstSend
  | closed
deriving DecidableEq

inductive PipeStatus where
  | active
  | stop
  | del
deriving DecidableEq

inductive Hub where
  | recv
  | send
deriving DecidableEq

def canRecv : BitVec 32 := 0x1
def canSend : BitVec 32 := 0x4

/-- STREAM_RST_TIMER -/
def rstTimer : Fin 3 := 2

def timers : List (Fin 3) := [0, 1, 2]

/-- The fields of a stream that hold something to be released: its pipes, of which `n` are in
pushed_streams, its two blocks and the block lists of its hubs. -/
inductive Resource (n : Nat) where
  | timer (i : Fin 3)
  | op (i : Fin 3)
  | sessionPipe
  | control
  | pushed (i : Fin n)
  | windowUpdate
  | rst
  | hubHead (hub : Hub)
  | hubCommon (hub : Hub)
deriving DecidableEq

/-- stream_s; `has` tells which fields are not NULL. The last four are the releases so far, the
references to pipes taken on top of those of the fields, the references dropped at the other ends
of pipes, and the runs of stream_close_func. -/
structure Stream (n : Nat) where
  status : Status
  shutFlags : BitVec 32
  recvTotalLen : Int
  has : Resource n → Bool
  pipeStatus : Resource n → PipeStatus
  markIds : Fin 3 → Int
  released : Resource n → Nat
  refs : Resource n → Int
  pointRefs : Resource n → Int
  closeRuns : Nat

/-- What a close has left to do: its section, and the calls after it. `free` is SESSION_FREE_PIPE
or stream_rsblock_free of what a section took over, `freeField` of a field of the stream. -/
inductive Job (n : Nat) where
  | localClose
  | remoteClose
  | sendRst (markId : Int)
  | recvEvent
  | sendEvent
  | stop (i : Fin 3)
  | refDec (r : Resource n)
  | pointRefDec (r : Resource n)
  | free (r : Resource n)
  | closeFunc
  | freeField (r : Resource n)
deriving DecidableEq

variable {n : Nat}

def hub (h : Hub) : List (Resource n) := [.hubHead h, .hubCommon h]

/-- What stream_local_close takes over, in two parts. -/
def localPipes : List (Resource n) := .control :: (hub .recv ++ hub .send)
def localOps : List (Resource n) := [.op 0, .op 1]

/-- What stream_remote_close takes over. -/
def remoteOps : List (Resource n) := [.op 0, .op 1, .op 2]

def without (rs : List (Resource n)) (has : Resource n → Bool) (r : Resource n) : Bool :=
  has r && !decide (r ∈ rs)

def marked (rs : List (Resource n)) (status : Resource n → PipeStatus) (r : Resource n) :
    PipeStatus :=
  if r ∈ rs then .del else status r

def held (rs : List (Resource n)) (refs : Resource n → Int) (r : Resource n) : Int :=
  if r ∈ rs then refs r + 1 else refs r

/-- Releases of what is not NULL. -/
def frees (g : Stream n) (rs : List (Resource n)) : List (Job n) := (rs.filter g.has).map .free

/-- A new mark_id for each timer; the pipes are kept by a reference. -/
def markTimers (g : Stream n) : Stream n :=
  { g with
    markIds := fun i => i32 (g.markIds i + 1)
    refs := held (timers.map .timer) g.refs }

/-- The section of stream_local_close; none where it reads through a NULL field. -/
def streamLocalClose (g : Stream n) : Option (Stream n × List (Job n)) :=
  match g.status with
  | .synRecv | .synSend | .synreplyRs =>
    if g.has .control ∧ (∀ i, g.has (.timer i)) ∧ ∀ i, g.has (.op i) then
      let clearBits := g.shutFlags &&& (canRecv ||| canSend)
      let g' := markTimers { g with
        status := .rstSend
        shutFlags := g.shutFlags &&& ~~~clearBits
        recvTotalLen := 0
        has := without (localPipes ++ localOps) g.has
        pipeStatus := marked (.control :: localOps) g.pipeStatus
        refs := held [.op 2] g.refs }
      some (g', .sendRst (g'.markIds rstTimer) :: (frees g localPipes ++
        timers.flatMap (fun i =>
          (if i ≠ rstTimer then [.stop i] else []) ++ [.pointRefDec (.timer i)]) ++
        frees g localOps ++ [.refDec (.op 2)]))
    else none
  | .initial | .rstRecv | .shutRecv => some ({ g with status := .closed }, [.closeFunc])
  | .rstSend | .closed => some (g, [])

/-- The section of stream_remote_close. -/
def streamRemoteClose (g : Stream n) : Option (Stream n × List (Job n)) :=
  match g.status with
  | .synRecv | .synSend | .synreplyRs =>
    let clearBits := g.shutFlags &&& canSend
    let (status, clearBits) : Status × BitVec 32 :=
      if g.recvTotalLen = 0 then (.shutRecv, clearBits ||| g.shutFlags &&& canRecv)
      else (.rstRecv, clearBits)
    if (clearBits ≠ 0 → g.has .control) ∧ (∀ i, g.has (.timer i)) ∧ ∀ i, g.has (.op i) then
      let g' := markTimers { g with
        status := status
        shutFlags := g.shutFlags &&& ~~~clearBits
        has := without (hub .send ++ remoteOps) g.has
        pipeStatus := marked remoteOps g.pipeStatus
        refs := if clearBits ≠ 0 then held [.control] g.refs else g.refs }
      some (g', (if clearBits &&& canRecv ≠ 0 then [.recvEvent] else []) ++
        (if clearBits &&& canSend ≠ 0 then [.sendEvent] else []) ++
        (if clearBits ≠ 0 then [.refDec .control] else []) ++ frees g (hub .send) ++
        timers.flatMap (fun i => [.stop i, .refDec (.timer i)]) ++ frees g remoteOps)
    else none
  | .initial | .rstSend => some ({ g with status := .closed }, [.closeFunc])
  | .rstRecv | .shutRecv | .closed => some (g, [])

/-- What stream_close_func releases. -/
def closeFields : List (Resource n) :=
  timers.map .timer ++ remoteOps ++ [.sessionPipe, .control] ++ (List.finRange n).map .pushed ++
    [.windowUpdate, .rst] ++ hub .recv ++ hub .send

def release (r : Resource n) (g : Stream n) : Stream n :=
  { g with released := Function.update g.released r (g.released r + 1) }

/-- The first job of a close; `fails` is the answer of stream_send_rst. -/
def act (fails : Bool) (job : Job n) (g : Stream n) : Option (Stream n × List (Job n)) :=
  match job with
  | .localClose => streamLocalClose g
  | .remoteClose => streamRemoteClose g
  | .sendRst _ => some (g, if fails then [.remoteClose] else [])
  -- these end at the listeners and at the timer of the pipes
  | .recvEvent | .sendEvent | .stop _ => some (g, [])
  | .refDec r => some ({ g with refs := Function.update g.refs r (g.refs r - 1) }, [])
  | .pointRefDec r =>
    some ({ g with pointRefs := Function.update g.pointRefs r (g.pointRefs r - 1) }, [])
  | .free r => some (release r g, [])
  | .closeFunc => some ({ g with closeRuns := g.closeRuns + 1 }, closeFields.map .freeField)
  | .freeField r => some (if g.has r then release r g else g, [])

inductive Entry where
  | localClose
  | remoteClose
deriving DecidableEq

def enter : Entry → List (Job n)
  | .localClose => [.localClose]
  | .remoteClose => [.remoteClose]

/-- Any number of closes of one stream. -/
def protocol : Program (Stream n) (Call Entry (Job n)) Entry Bool := program enter act

/-- What the fields of a stream still hold in a status of it. -/
def owns : Status → Resource n → Bool
  | .initial | .synRecv | .synSend | .synreplyRs => fun _ => true
  | .rstRecv | .shutRecv => without (hub .send ++ remoteOps) fun _ => true
  | .rstSend => without (localPipes ++ localOps) fun _ => true
  | .closed => fun _ => false

/-- A stream in any status and with the pipes and block lists that are `present`; what its fields
do not hold any more has been released. -/
structure Initial (present : Resource n → Bool) (c : Config (Stream n) (Call Entry (Job n))) :
    Prop where
  calls : c.calls = []
  control : present .control
  timers : ∀ i, present (.timer i)
  ops : ∀ i, present (.op i)
  fields : c.shared.status ≠ .closed → ∀ r, c.shared.has r = (present r && owns c.shared.status r)
  released : ∀ r, c.shared.released r = (present r && !owns c.shared.status r).toNat
  closeRuns : c.shared.closeRuns = if c.shared.status = .closed then 1 else 0

/-- One release of a resource is left. -/
def Job.frees (r : Resource n) : Job n → Nat
  | .free r' => if r' = r then 1 else 0
  | _ => 0

/-- A release of the field of a resource is left. -/
def Job.fields (r : Resource n) : Job n → Nat
  | .freeField r' => if r' = r then 1 else 0
  | .closeFunc => 1
  | _ => 0

def Job.closing : Job n → Nat
  | .closeFunc => 1
  | _ => 0

/-- How long a close can take. -/
def Job.size : Job n → Nat
  | .localClose => 60 + n
  | .remoteClose => 40 + n
  | .sendRst _ => 41 + n
  | .closeFunc => 20 + n
  | _ => 1

/-- A stream has its fields as its status tells, and each resource is released, is to be released,
or is in a field of it. -/
structure Keeps (present : Resource n → Bool) (g : Stream n) (left : (Job n → Nat) → Nat) :
    Prop where
  owned : ∀ r, g.released r + left (Job.frees r) +
    (if g.has r then (if g.status = .closed then left (Job.fields r) else 1) else 0) =
      (present r).toNat
  closes : g.closeRuns + left Job.closing = if g.status = .closed then 1 else 0
  fields : g.status ≠ .closed → ∀ r, g.has r = (present r && owns g.status r)
  pending : g.status ≠ .closed → ∀ r, left (Job.fields r) = 0

section
variable {w : Job n → Nat} {r : Resource n} {rs : List (Resource n)} {g : Stream n}

theorem frees_quiet (g : Stream n) (rs : List (Resource n)) (quiet : ∀ r, w (.free r) = 0) :
    ((frees g rs).map w).sum = 0 := by
  apply List.sum_eq_zero
  intro k member
  simp only [frees, List.map_map, List.mem_map] at member
  obtain ⟨r, _, rfl⟩ := member
  exact quiet r

@[simp] theorem frees_fields (g : Stream n) (rs : List (Resource n)) (r : Resource n) :
    ((frees g rs).map (Job.fields r)).sum = 0 := frees_quiet g rs fun _ => rfl

@[simp] theorem frees_closing (g : Stream n) (rs : List (Resource n)) :
    ((frees g rs).map Job.closing).sum = 0 := frees_quiet g rs fun _ => rfl

theorem count_sum {job : Resource n → Job n} (tells : ∀ s, w (job s) = if s = r then 1 else 0)
    (rs : List (Resource n)) : ((rs.map job).map w).sum = rs.count r := by
  induction rs with
  | nil => rfl
  | cons s rs ih =>
    simp only [List.map_cons, List.sum_cons, tells, ih, List.count_cons, beq_iff_eq]
    omega

theorem frees_sum (g : Stream n) (rs : List (Resource n)) (r : Resource n) :
    ((frees g rs).map (Job.frees r)).sum = if g.has r then rs.count r else 0 := by
  rw [frees, count_sum fun _ => rfl]
  cases has : g.has r with
  | true => exact List.count_filter has
  | false =>
    apply List.count_eq_zero_of_not_mem
    intro member
    simp [has] at member

theorem localTakes_nodup : (localPipes ++ localOps : List (Resource n)).Nodup := by
  simp [localPipes, localOps, hub]

theorem remoteTakes_nodup : (hub .send ++ remoteOps : List (Resource n)).Nodup := by
  simp [remoteOps, hub]

theorem mem_timers (i : Fin 3) : i ∈ timers := by
  revert i
  decide

theorem mem_closeFields (r : Resource n) : r ∈ (closeFields : List (Resource n)) := by
  cases r with
  | timer i => simp [closeFields, mem_timers]
  | op i =>
    have all : ∀ i : Fin 3, i = 0 ∨ i = 1 ∨ i = 2 := by decide
    have some := all i
    simp [closeFields, remoteOps, hub, some]
  | hubHead h | hubCommon h => cases h <;> simp [closeFields, hub]
  | _ => simp [closeFields]

theorem closeFields_nodup : (closeFields : List (Resource n)).Nodup := by
  have pushed : ((List.finRange n).map (Resource.pushed (n := n))).Nodup :=
    (List.nodup_finRange n).map fun i j same => by simpa using same
  simp [closeFields, timers, remoteOps, hub, List.nodup_append, pushed]

theorem closeFields_sum (r : Resource n) :
    ((closeFields.map Job.freeField).map (Job.fields r)).sum = 1 := by
  have once := List.count_eq_one_of_mem closeFields_nodup (mem_closeFields r)
  rw [count_sum fun _ => rfl, once]

end

/-- A stream that sends gives up `rs` for another status. -/
structure TakesOver (rs : List (Resource n)) (g g' : Stream n) (jobs : List (Job n)) : Prop where
  opened : g.status ≠ .closed
  opened' : g'.status ≠ .closed
  whole : ∀ r : Resource n, owns g.status r = true
  rest : ∀ r : Resource n, owns g'.status r = !decide (r ∈ rs)
  distinct : rs.Nodup
  has : g'.has = without rs g.has
  released : g'.released = g.released
  closeRuns : g'.closeRuns = g.closeRuns
  frees : ∀ r, (jobs.map (Job.frees r)).sum = if g.has r then rs.count r else 0
  fields : ∀ r, (jobs.map (Job.fields r)).sum = 0
  closing : (jobs.map Job.closing).sum = 0

/-- A section takes over `rs`, or closes the stream, or leaves it alone. -/
inductive Outcome (rs : List (Resource n)) (g : Stream n) : Stream n → List (Job n) → Prop where
  | takes (taken : TakesOver rs g g' jobs) : Outcome rs g g' jobs
  | closes (opened : g.status ≠ .closed) :
      Outcome rs g { g with status := .closed } [.closeFunc]
  | stays : Outcome rs g g []

/-- The statuses after a local close. -/
def LocalDone (status : Status) : Prop := status = .rstSend ∨ status = .closed

/-- The statuses after a remote close. -/
def RemoteDone (status : Status) : Prop :=
  status = .rstRecv ∨ status = .shutRecv ∨ status = .closed

section
variable {g g' : Stream n} {jobs : List (Job n)}

theorem localClose_takes (sends : ∀ r : Resource n, owns g.status r = true)
    (opened : g.status ≠ .closed) (status : g'.status = .rstSend)
    (has : g'.has = without (localPipes ++ localOps) g.has) (released : g'.released = g.released)
    (closeRuns : g'.closeRuns = g.closeRuns) (id : Int) :
    TakesOver (localPipes ++ localOps) g g' (.sendRst id :: (frees g localPipes ++
      timers.flatMap (fun i =>
        (if i ≠ rstTimer then [.stop i] else []) ++ [.pointRefDec (.timer i)]) ++
      frees g localOps ++ [.refDec (.op 2)])) where
  opened := opened
  opened' := by simp [status]
  whole := sends
  rest r := by simp [status, owns, without]
  distinct := localTakes_nodup
  has := has
  released := released
  closeRuns := closeRuns
  frees r := by
    simp only [List.map_cons, List.map_append, List.sum_cons, List.sum_append, frees_sum,
      List.count_append]
    cases g.has r <;> simp [Job.frees, timers, rstTimer]
  fields r := by simp [Job.fields, timers, rstTimer]
  closing := by simp [Job.closing, timers, rstTimer]

theorem streamLocalClose_outcome (acted : streamLocalClose g = some (g', jobs)) :
    Outcome (localPipes ++ localOps) g g' jobs ∧ LocalDone g'.status ∧
      (RemoteDone g.status → RemoteDone g'.status) := by
  unfold streamLocalClose at acted
  split at acted
  case h_1 | h_2 | h_3 =>
    rename_i status
    split at acted
    · cases acted
      have sends : ∀ r : Resource n, owns g.status r = true := by simp [status, owns]
      have opened : g.status ≠ .closed := by simp [status]
      refine ⟨.takes ?_, .inl rfl, ?_⟩
      · apply localClose_takes sends opened <;> rfl
      · simp [status, RemoteDone]
    · contradiction
  case h_4 | h_5 | h_6 =>
    rename_i status
    cases acted
    exact ⟨.closes (by simp [status]), .inr rfl, fun _ => .inr (.inr rfl)⟩
  case h_7 | h_8 =>
    rename_i status
    cases acted
    exact ⟨.stays, by simp [LocalDone, status], id⟩

theorem remoteClose_takes (sends : ∀ r : Resource n, owns g.status r = true)
    (opened : g.status ≠ .closed) (status : g'.status = .rstRecv ∨ g'.status = .shutRecv)
    (has : g'.has = without (hub .send ++ remoteOps) g.has) (released : g'.released = g.released)
    (closeRuns : g'.closeRuns = g.closeRuns) {clearBits : BitVec 32} :
    TakesOver (hub .send ++ remoteOps) g g' ((if clearBits &&& canRecv ≠ 0 then [.recvEvent] else []) ++
        (if clearBits &&& canSend ≠ 0 then [.sendEvent] else []) ++
        (if clearBits ≠ 0 then [.refDec .control] else []) ++ frees g (hub .send) ++
        timers.flatMap (fun i => [.stop i, .refDec (.timer i)]) ++ frees g remoteOps) where
  opened := opened
  opened' := by rcases status with status | status <;> simp [status]
  whole := sends
  rest r := by rcases status with status | status <;> simp [status, owns, without]
  distinct := remoteTakes_nodup
  has := has
  released := released
  closeRuns := closeRuns
  frees r := by
    simp only [List.map_append, List.sum_append, frees_sum, List.count_append]
    cases g.has r <;> split <;> split <;> split <;> simp [Job.frees, timers]
  fields r := by
    simp only [List.map_append, List.sum_append, frees_fields]
    split <;> split <;> split <;> simp [Job.fields, timers]
  closing := by
    simp only [List.map_append, List.sum_append, frees_closing]
    split <;> split <;> split <;> simp [Job.closing, timers]

theorem streamRemoteClose_outcome (acted : streamRemoteClose g = some (g', jobs)) :
    Outcome (hub .send ++ remoteOps) g g' jobs ∧ RemoteDone g'.status ∧
      (LocalDone g.status → LocalDone g'.status) := by
  unfold streamRemoteClose at acted
  split at acted
  case h_1 | h_2 | h_3 =>
    rename_i status
    have sends : ∀ r : Resource n, owns g.status r = true := by simp [status, owns]
    have opened : g.status ≠ .closed := by simp [status]
    by_cases empty : g.recvTotalLen = 0
    · simp only [if_pos empty] at acted
      split at acted
      · cases acted
        refine ⟨.takes ?_, .inr (.inl rfl), ?_⟩
        · apply remoteClose_takes sends opened (.inr rfl) <;> rfl
        · simp [status, LocalDone]
      · contradiction
    · simp only [if_neg empty] at acted
      split at acted
      · cases acted
        refine ⟨.takes ?_, .inl rfl, ?_⟩
        · apply remoteClose_takes sends opened (.inl rfl) <;> rfl
        · simp [status, LocalDone]
      · contradiction
  case h_4 | h_5 =>
    rename_i status
    cases acted
    exact ⟨.closes (by simp [status]), .inr (.inr rfl), fun _ => .inr rfl⟩
  case h_6 | h_7 | h_8 =>
    rename_i status
    cases acted
    exact ⟨.stays, by simp [RemoteDone, status], id⟩

end

section
variable {present : Resource n → Bool} {g g' : Stream n} {left : (Job n → Nat) → Nat}
variable {jobs : List (Job n)} {job : Job n}

theorem Keeps.congr {left' : (Job n → Nat) → Nat} (keeps : Keeps present g left)
    (frees : ∀ r, left' (Job.frees r) = left (Job.frees r))
    (fields : ∀ r, left' (Job.fields r) = left (Job.fields r))
    (closing : left' Job.closing = left Job.closing) : Keeps present g left' where
  owned r := by
    rw [frees, fields]
    exact keeps.owned r
  closes := closing ▸ keeps.closes
  fields := keeps.fields
  pending opened r := (fields r).trans (keeps.pending opened r)

/-- The resources of a stream that gives some of them up are released once. -/
theorem Keeps.taken {rs : List (Resource n)} (keeps : Keeps present g left)
    (taken : TakesOver rs g g' jobs) : Keeps present g' fun w => (jobs.map w).sum + left w where
  owned r := by
    have owned := keeps.owned r
    have count : rs.count r = if r ∈ rs then 1 else 0 := by
      split
      next member => exact List.count_eq_one_of_mem taken.distinct member
      next other => exact List.count_eq_zero_of_not_mem other
    rw [if_neg taken.opened] at owned
    rw [taken.released, taken.frees, taken.has, without, if_neg taken.opened', count]
    cases has : g.has r
    · simpa [has] using owned
    · by_cases member : r ∈ rs <;> simp [has, member] at owned ⊢ <;> omega
  closes := by
    have closes := keeps.closes
    rw [if_neg taken.opened] at closes
    rw [taken.closeRuns, taken.closing, if_neg taken.opened']
    omega
  fields _ r := by
    rw [taken.has, without, keeps.fields taken.opened, taken.whole, taken.rest, Bool.and_true]
  pending _ r := by
    have pending := keeps.pending taken.opened r
    rw [taken.fields]
    omega

/-- What the fields of a stream that is being closed hold is left to stream_close_func. -/
theorem Keeps.closed (keeps : Keeps present g left) (opened : g.status ≠ .closed) :
    Keeps present { g with status := .closed }
      fun w => (([.closeFunc] : List (Job n)).map w).sum + left w where
  owned r := by
    have owned := keeps.owned r
    have pending := keeps.pending opened r
    rw [if_neg opened] at owned
    simpa [Job.frees, Job.fields, pending] using owned
  closes := by
    have closes := keeps.closes
    rw [if_neg opened] at closes
    simp only [List.map_cons, List.map_nil, List.sum_cons, List.sum_nil, Job.closing, if_true]
    omega
  fields other := absurd rfl other
  pending other := absurd rfl other

theorem Keeps.outcome {rs : List (Resource n)} (keeps : Keeps present g left)
    (outcome : Outcome rs g g' jobs) : Keeps present g' fun w => (jobs.map w).sum + left w := by
  cases outcome with
  | takes taken => exact keeps.taken taken
  | closes opened => exact keeps.closed opened
  | stays => apply keeps.congr <;> simp

/-- Nothing is released by a job that leaves the fields of a stream alone. -/
theorem Keeps.quiet (keeps : Keeps present g left) (has : g'.has = g.has)
    (status : g'.status = g.status) (released : g'.released = g.released)
    (closeRuns : g'.closeRuns = g.closeRuns) :
    Keeps present g' fun w => (([] : List (Job n)).map w).sum + left w := by
  have same : Keeps present g' left := by
    obtain ⟨owned, closes, fields, pending⟩ := keeps
    rw [← has, ← status, ← released, ← closeRuns] at *
    exact ⟨owned, closes, fields, pending⟩
  apply same.congr <;> simp

theorem act_keeps {fails : Bool} (keeps : Keeps present g fun w => w job + left w)
    (acted : act fails job g = some (g', jobs)) :
    Keeps present g' fun w => (jobs.map w).sum + left w := by
  have plain : (∀ r, job.frees r = 0) → (∀ r, job.fields r = 0) → job.closing = 0 →
      Keeps present g left := by
    intro frees fields closing
    apply keeps.congr <;> simp [frees, fields, closing]
  cases job with
  | localClose =>
    have keeps := plain (fun _ => rfl) (fun _ => rfl) rfl
    exact keeps.outcome (streamLocalClose_outcome acted).1
  | remoteClose =>
    have keeps := plain (fun _ => rfl) (fun _ => rfl) rfl
    exact keeps.outcome (streamRemoteClose_outcome acted).1
  | sendRst id =>
    have keeps := plain (fun _ => rfl) (fun _ => rfl) rfl
    cases acted
    apply keeps.congr <;> cases fails <;> simp [Job.frees, Job.fields, Job.closing]
  | recvEvent | sendEvent | stop i | refDec r | pointRefDec r =>
    have keeps := plain (fun _ => rfl) (fun _ => rfl) rfl
    cases acted
    exact keeps.quiet rfl rfl rfl rfl
  | free r =>
    cases acted
    obtain ⟨owned, closes, fields, pending⟩ := keeps
    refine ⟨fun s => ?_, ?_, fields, ?_⟩
    · have owned := owned s
      by_cases same : r = s
      · subst same
        simp [Job.frees, Job.fields, release] at owned ⊢
        omega
      · simpa [Job.frees, Job.fields, release, same, Function.update_of_ne (Ne.symm same)]
          using owned
    · simp only [Job.closing] at closes
      exact closes
    · simpa [Job.fields, release] using pending
  | closeFunc =>
    cases acted
    have isClosed : g.status = .closed := by
      by_contra opened
      have pending := keeps.pending opened .control
      simp [Job.fields] at pending
    obtain ⟨owned, closes, fields, pending⟩ := keeps
    have none : ∀ w : Job n → Nat, (∀ r, w (.freeField r) = 0) →
        ((closeFields.map Job.freeField).map w).sum = 0 := by
      intro w quiet
      simp [List.sum_eq_zero_iff, quiet]
    refine ⟨fun s => ?_, ?_, fun opened => absurd isClosed opened,
      fun opened => absurd isClosed opened⟩
    · have owned := owned s
      rw [closeFields_sum, none _ fun _ => rfl]
      exact owned
    · rw [none _ fun _ => rfl]
      simp only [Job.closing] at closes
      dsimp only
      omega
  | freeField r =>
    cases acted
    have isClosed : g.status = .closed := by
      by_contra opened
      have pending := keeps.pending opened r
      simp [Job.fields] at pending
    have status : (if g.has r then release r g else g).status = .closed := by
      split <;> exact isClosed
    obtain ⟨owned, closes, fields, pending⟩ := keeps
    refine ⟨fun s => ?_, ?_, fun opened => absurd status opened, fun opened => absurd status opened⟩
    · have owned := owned s
      rw [if_pos isClosed] at owned
      rw [if_pos status]
      by_cases same : r = s
      · subst same
        cases has : g.has r
        · simpa [has, Job.frees, Job.fields] using owned
        · simp [has, Job.frees, Job.fields, release] at owned ⊢
          omega
      · cases has : g.has r <;>
          simpa [has, Job.frees, Job.fields, release, same, Function.update_of_ne (Ne.symm same)]
            using owned
    · rw [if_pos isClosed] at closes
      rw [if_pos status]
      cases has : g.has r <;> simpa [has, Job.closing, release] using closes

end

section
variable {g g' : Stream n} {jobs : List (Job n)} {job : Job n} {fails : Bool}

theorem done_both {status : Status} (ours : LocalDone status) (theirs : RemoteDone status) :
    status = .closed := by
  rcases ours with rfl | rfl
  · simp [RemoteDone] at theirs
  · rfl

theorem act_done (acted : act fails job g = some (g', jobs)) :
    (LocalDone g.status ∨ job = .localClose → LocalDone g'.status) ∧
      (RemoteDone g.status ∨ job = .remoteClose → RemoteDone g'.status) := by
  cases job with
  | localClose =>
    obtain ⟨_, ours, theirs⟩ := streamLocalClose_outcome acted
    exact ⟨fun _ => ours, fun before => theirs (before.resolve_right (by simp))⟩
  | remoteClose =>
    obtain ⟨_, theirs, ours⟩ := streamRemoteClose_outcome acted
    exact ⟨fun before => ours (before.resolve_right (by simp)), fun _ => theirs⟩
  | freeField r =>
    cases acted
    have status : (if g.has r then release r g else g).status = g.status := by split <;> rfl
    simp [status]
  | _ =>
    cases acted
    simp [release]

/-- A call has its section still to do, or the status of the stream shows it. -/
def Passed (g : Stream n) (entry : Entry) (jobs : List (Job n)) : Prop :=
  (entry = .localClose → .localClose ∈ jobs ∨ LocalDone g.status) ∧
    (entry = .remoteClose → .remoteClose ∈ jobs ∨ RemoteDone g.status)

theorem Passed.acts {entry : Entry} {rest : List (Job n)} (passed : Passed g entry (job :: rest))
    (acted : act fails job g = some (g', jobs)) : Passed g' entry (jobs ++ rest) := by
  obtain ⟨ours, theirs⟩ := act_done acted
  constructor
  · intro kind
    rcases passed.1 kind with member | done
    · rcases List.mem_cons.mp member with first | later
      · exact .inr (ours (.inr first.symm))
      · exact .inl (List.mem_append_right _ later)
    · exact .inr (ours (.inl done))
  · intro kind
    rcases passed.2 kind with member | done
    · rcases List.mem_cons.mp member with first | later
      · exact .inr (theirs (.inr first.symm))
      · exact .inl (List.mem_append_right _ later)
    · exact .inr (theirs (.inl done))

theorem Passed.kept {entry : Entry} {rest : List (Job n)} (passed : Passed g entry rest)
    (acted : act fails job g = some (g', jobs)) : Passed g' entry rest := by
  obtain ⟨ours, theirs⟩ := act_done acted
  exact ⟨fun kind => (passed.1 kind).imp_right fun done => ours (.inl done),
    fun kind => (passed.2 kind).imp_right fun done => theirs (.inl done)⟩

theorem map_size {make : Resource n → Job n} (one : ∀ r, (make r).size = 1)
    (rs : List (Resource n)) : ((rs.map make).map Job.size).sum = rs.length := by
  induction rs with
  | nil => rfl
  | cons r rs ih =>
    rw [List.map_cons, List.map_cons, List.sum_cons, ih, one, List.length_cons, Nat.add_comm]

theorem frees_size (g : Stream n) (rs : List (Resource n)) :
    ((frees g rs).map Job.size).sum ≤ rs.length := by
  rw [frees, map_size fun _ => rfl]
  exact List.length_filter_le _ _

/-- Each job of a close leaves less to do. -/
theorem act_shrinks (acted : act fails job g = some (g', jobs)) :
    (jobs.map Job.size).sum < job.size := by
  cases job with
  | localClose =>
    have pipes := frees_size g localPipes
    have ops := frees_size g localOps
    simp only [act, streamLocalClose] at acted
    split at acted
    case h_1 | h_2 | h_3 =>
      split at acted
      · cases acted
        simp [Job.size, timers, rstTimer, localPipes, localOps, hub] at pipes ops ⊢
        omega
      · contradiction
    all_goals
      cases acted
      simp [Job.size]
  | remoteClose =>
    have blocks := frees_size g (hub .send)
    have ops := frees_size g remoteOps
    simp only [act, streamRemoteClose] at acted
    split at acted
    case h_1 | h_2 | h_3 =>
      generalize (if g.recvTotalLen = 0 then _ else _ : Status × BitVec 32) = chosen at acted
      obtain ⟨status, clearBits⟩ := chosen
      dsimp only at acted
      split at acted
      · cases acted
        simp only [List.map_append, List.sum_append]
        split <;> split <;> split <;>
          simp [Job.size, timers, remoteOps, hub] at blocks ops ⊢ <;> omega
      · contradiction
    all_goals
      cases acted
      simp [Job.size]
  | sendRst id =>
    cases acted
    cases fails <;> simp [Job.size]
  | closeFunc =>
    cases acted
    rw [map_size fun _ => rfl]
    simp [Job.size, closeFields, timers, remoteOps, hub]
    omega
  | _ =>
    cases acted
    simp [Job.size]

/-- No section reads through a NULL field. -/
theorem act_able {present : Resource n → Bool} {left : (Job n → Nat) → Nat}
    (control : present .control) (timers : ∀ i, present (.timer i)) (ops : ∀ i, present (.op i))
    (keeps : Keeps present g left) (job : Job n) (fails : Bool) : (act fails job g).isSome := by
  have full : g.status = .synRecv ∨ g.status = .synSend ∨ g.status = .synreplyRs →
      g.has .control ∧ (∀ i, g.has (.timer i)) ∧ ∀ i, g.has (.op i) := by
    intro sends
    have fields := keeps.fields (by rcases sends with status | status | status <;> simp [status])
    have owned : ∀ r : Resource n, owns g.status r = true := by
      rcases sends with status | status | status <;> simp [status, owns]
    simp [fields, owned, control, timers, ops]
  cases job with
  | localClose =>
    simp only [act, streamLocalClose]
    split
    case h_1 | h_2 | h_3 =>
      rename_i status
      rw [if_pos (full (by simp [status]))]
      rfl
    all_goals rfl
  | remoteClose =>
    simp only [act, streamRemoteClose]
    split
    case h_1 | h_2 | h_3 =>
      rename_i status
      obtain ⟨hasControl, hasTimers, hasOps⟩ := full (by simp [status])
      rw [if_pos ⟨fun _ => hasControl, hasTimers, hasOps⟩]
      rfl
    all_goals rfl
  | _ => rfl

end

/-- A stream whose closes have come so far. -/
structure Invariant (present : Resource n → Bool) (c : Config (Stream n) (Call Entry (Job n))) :
    Prop where
  control : present .control
  timers : ∀ i, present (.timer i)
  ops : ∀ i, present (.op i)
  keeps : Keeps present c.shared (pending c)
  calls : ∀ l ∈ c.calls, Passed c.shared l.entry l.jobs

section
variable {present : Resource n → Bool} {c c' : Config (Stream n) (Call Entry (Job n))}

theorem Initial.invariant (initial : Initial present c) : Invariant present c := by
  obtain ⟨calls, control, timers, ops, fields, released, closeRuns⟩ := initial
  have none : ∀ w, pending c w = 0 := fun w => by simp [pending, Config.total, calls]
  refine ⟨control, timers, ops, ⟨fun r => ?_, ?_, fields, fun _ r => none _⟩, by simp [calls]⟩
  · rw [released, none, none]
    by_cases closed : c.shared.status = .closed
    · simp [closed, owns]
    · rw [fields closed, if_neg closed]
      cases present r <;> cases owns c.shared.status r <;> rfl
  · rw [none, closeRuns, Nat.add_zero]

theorem run_invariant (inv : Invariant present c) (run : protocol.Reaches c c') :
    Invariant present c' := by
  obtain ⟨control, timers, ops, keeps, calls⟩ := inv
  refine ⟨control, timers, ops, ?_, ?_⟩
  · apply reaches_pending keeps _ act_keeps run
    intro g left e keeps
    apply keeps.congr <;> cases e <;> simp [enter, Job.frees, Job.fields, Job.closing]
  · apply reaches_calls calls _ Passed.acts Passed.kept run
    intro g e
    cases e <;> simp [Passed, enter]

theorem run_closed (run : protocol.Reaches c c') (closed : c.shared.status = .closed) :
    c'.shared.status = .closed := by
  apply Program.Reaches.invariant (I := fun c => c.shared.status = .closed) closed _ _ run
  · intro e g g' l ls closed started
    cases started
    exact closed
  · intro fails g g' l l' pre post closed acted
    obtain ⟨job, rest, jobs, _, done, _⟩ := step_cases acted
    obtain ⟨ours, theirs⟩ := act_done done
    exact done_both (ours (.inl (.inr closed))) (theirs (.inl (.inr (.inr closed))))

/-- The calls of a close come to their end. -/
theorem run_finishes (inv : Invariant present c) :
    ∃ c', protocol.Reaches c c' ∧ ∀ l ∈ c'.calls, l.jobs = [] := by
  apply finishes (I := Invariant present) Job.size act_shrinks _ _ inv
  · intro c c' inv step
    exact run_invariant inv (.single step)
  · intro g e job rest pre post inv
    exact ⟨true, act_able inv.control inv.timers inv.ops inv.keeps job true⟩

/-- A stream is closed for good, once a local and a remote close are over; stream_close_func then
runs once, and what the stream had is released once. -/
theorem stream_closing (initial : Initial present c) (run : protocol.Reaches c c') :
    (c'.shared.status = .closed →
      ∀ c'', protocol.Reaches c' c'' → c''.shared.status = .closed) ∧
    ((∃ l ∈ c'.calls, l.entry = .localClose ∧ l.jobs = []) →
      (∃ l ∈ c'.calls, l.entry = .remoteClose ∧ l.jobs = []) → c'.shared.status = .closed) ∧
    c'.shared.closeRuns + pending c' Job.closing =
      (if c'.shared.status = .closed then 1 else 0) ∧
    (∀ r, c'.shared.released r ≤ (present r).toNat) ∧
    (c'.shared.status = .closed → (∀ l ∈ c'.calls, l.jobs = []) →
      c'.shared.closeRuns = 1 ∧ ∀ r, c'.shared.released r = (present r).toNat) ∧
    ∃ c'', protocol.Reaches c' c'' ∧ ∀ l ∈ c''.calls, l.jobs = [] := by
  have inv := run_invariant initial.invariant run
  have keeps := inv.keeps
  refine ⟨fun closed c'' rest => run_closed rest closed, ?_, keeps.closes, fun r => ?_, ?_,
    run_finishes inv⟩
  · rintro ⟨l, member, ours, ended⟩ ⟨l', member', theirs, ended'⟩
    have ours := (inv.calls l member).1 ours
    have theirs := (inv.calls l' member').2 theirs
    simp only [ended, ended', List.not_mem_nil, false_or] at ours theirs
    exact done_both ours theirs
  · have owned := keeps.owned r
    omega
  · intro closed ended
    have none : ∀ w, pending c' w = 0 := by
      intro w
      apply List.sum_eq_zero
      intro k member
      obtain ⟨l, found, rfl⟩ := List.mem_map.mp member
      simp [Call.sum, ended l found]
    constructor
    · have closes := keeps.closes
      rwa [none, if_pos closed] at closes
    · intro r
      have owned := keeps.owned r
      simpa [none, closed] using owned

/-- A stream that has received a SYN, with one pushed stream and all its fields in use. -/
def received : Config (Stream 1) (Call Entry (Job 1)) :=
  ⟨⟨.synRecv, 0x5, 0, fun _ => true, fun _ => .active, fun _ => 0, fun _ => 0, fun _ => 0,
    fun _ => 0, 0⟩, []⟩

/-- The remote close finds what the local close has left. -/
theorem stream_closing_received : ∃ c, protocol.Reaches received c ∧ c.shared.closeRuns = 1 ∧
    ∀ r, c.shared.released r = 1 := by
  have initial : Initial (fun _ => true) received := by
    constructor <;> simp [received, owns]
  have executed : ((protocol.execWhere (fun _ _ => true) (List.flatten
      [[.inl .localClose, .inl .remoteClose], Program.turns 0 1 true, Program.turns 1 1 true,
        Program.turns 0 15 true, Program.turns 1 16 true]) received).map fun c =>
        (c.shared.status, c.calls.map (·.jobs))) = some (.closed, [[], []]) := rfl
  obtain ⟨c, done, facts⟩ := Option.map_eq_some_iff.mp executed
  simp only [Prod.mk.injEq] at facts
  obtain ⟨closed, ended⟩ := facts
  have run := (Program.execWhere_reaches done).reaches
  have ended : ∀ l ∈ c.calls, l.jobs = [] := by
    intro l member
    have inside : l.jobs ∈ c.calls.map (·.jobs) := List.mem_map_of_mem member
    rw [ended] at inside
    simpa using inside
  obtain ⟨_, _, _, _, whole, _⟩ := stream_closing initial run
  exact ⟨c, run, whole closed ended⟩

end
end MoonInWater.Session.StreamClose
