import MoonInWater.Session.Status

/-! The close of a session: the section that finds it marked and without units runs
session_close_func. -/
namespace MoonInWater.Session.SessionClose
open Threads Status

inductive PipeStatus where
  | active
  | stop
  | del
deriving DecidableEq

/-- The categories of the pipes of a session. -/
inductive Category where
  | recvTimer
  | sendTimer
  | control
  | ping
  | io
  | newStream
  | linkStream
  | opHub
  | op
deriving DecidableEq

/-- The categories of which the close sets SESSION_GOAWAY_RECV. -/
def Category.marks : Category → Bool
  | .control | .recvTimer | .sendTimer | .io | .op => true
  | .ping | .newStream | .linkStream | .opHub => false

/-- The status, whether `p_io` is set, the pipes, and the runs of session_close_func. -/
structure SessionS (P : Type) where
  status : Word
  pIo : Bool
  pipeStatus : P → PipeStatus
  closeRuns : Nat

/-- A call: a task, session_triger_free with its arguments, session_pipe_close with what is_free
holds before it is set, a section that changes flags, and session_close_func. -/
inductive Local (P : Type) where
  | task
  | running
  | trigerFree (goaway : Bool) (useing : Nat)
  | pipeClose (p : P) (isFree : Bool)
  | flags
  | closeFunc
  | done
deriving DecidableEq

/-- A session_recv or session_send, close_session, a close of a pipe, and any other section. -/
inductive Request (P : Type) where
  | task
  | closeSession
  | pipeClose (p : P) (isFree : Bool)
  | flags

/-- New values of the flags, and the `set_bits` with which a task ends. -/
structure Answer where
  flags : Flags
  goaway : Bool

/-- SESSION_RECVING, SESSION_SENDING, SESSION_CAN_RECV and SESSION_CAN_SEND -/
def taskFlags : Flags := 0x3c

section
variable {P : Type} [DecidableEq P] (category : P → Category)

def goawayIf (b : Bool) : Flags := if b then sessionGoawayRecv else 0

def start (e : Request P) (g : SessionS P) : Option (SessionS P × Local P) :=
  match e with
  | .task => some (g, .task)
  | .closeSession => some (g, .trigerFree true 0)
  | .pipeClose p isFree => some (g, .pipeClose p isFree)
  | .flags => some (g, .flags)

/-- The section of session_triger_free. -/
def trigerFree (setBits : Flags) (useing : Nat) (w : Word) : Word × Bool :=
  if isSessionFreed w then (w, false)
  else
    let w := { flags := setFlag w.flags setBits, useing := w.useing - useing : Word }
    (w, isSessionFreed w)

/-- Whether session_pipe_close goes into the branch that sets is_free. -/
def closesPipe (g : SessionS P) (p : P) : Bool :=
  !isSessionFreed g.status && decide (g.pipeStatus p = .active)

/-- session_close_func, when is_free says so. -/
def behind (isFree : Bool) : Local P := if isFree then .closeFunc else .done

def step (a : Answer) (g : SessionS P) : Local P → Option (SessionS P × Local P)
  | .task =>
    if isSessionClosed g.status = true ∨ g.pIo = false then some (g, .done)
    else some ({ g with status := { g.status with useing := g.status.useing + 1 } }, .running)
  | .running => some (g, .trigerFree a.goaway 1)
  | .trigerFree goaway useing =>
    let r := trigerFree (goawayIf goaway) useing g.status
    some ({ g with status := r.1 }, behind r.2)
  | .pipeClose p isFree =>
    let pipeStatus := Function.update g.pipeStatus p .del
    if closesPipe g p then
      let status := { g.status with flags := setFlag g.status.flags (goawayIf (category p).marks) }
      some ({ g with
          status := status
          pIo := g.pIo && decide (category p ≠ .io)
          pipeStatus := pipeStatus }, behind (isSessionFreed status))
    else some ({ g with pipeStatus := pipeStatus }, behind isFree)
  | .flags =>
    some ({ g with status := { g.status with
      flags := setFlag (clearFlag g.status.flags taskFlags) (a.flags &&& taskFlags) } }, .done)
  | .closeFunc => some ({ g with closeRuns := g.closeRuns + 1 }, .done)
  | .done => none

def protocol : Program (SessionS P) (Local P) (Request P) Answer := ⟨start, step category⟩

end

section
variable {P : Type} [DecidableEq P] {category : P → Category}

/-- The units that a task holds. -/
def units : Local P → Nat
  | .running => 1
  | .trigerFree _ useing => useing
  | _ => 0

def closing : Local P → Nat
  | .closeFunc => 1
  | _ => 0

/-- session_close_func runs once, while no task holds a unit; it has run when the session is marked
and no task holds one, and none is about to run it. -/
structure Sound (c : Config (SessionS P) (Local P)) : Prop where
  once : c.shared.closeRuns + c.total closing ≤ 1
  alone : 0 < c.total closing → c.total units = 0
  closed : isSessionClosed c.shared.status = true → c.total units = 0 → c.total closing = 0 →
    c.shared.closeRuns = 1

/-- A section that leaves the session marked and without units. -/
def LeavesIdle (category : P → Category) (g : SessionS P) : Local P → Prop
  | .trigerFree goaway useing =>
    (isSessionClosed g.status = true ∨ goaway = true) ∧ g.status.useing = useing
  | .pipeClose p _ => closesPipe g p = true ∧
    (isSessionClosed g.status = true ∨ (category p).marks = true) ∧ g.status.useing = 0
  | _ => False

/-- A section that makes the session marked and without units finds the other flags as
IS_SESSION_FREED asks for; a close of a pipe that is not active, or of a freed session, finds 0 in
is_free. -/
def CleanStep (category : P → Category) (c : Config (SessionS P) (Local P)) (l : Local P) : Prop :=
  (LeavesIdle category c.shared l → ¬ Idle c.shared.status → Exact c.shared.status.flags) ∧
    ∀ p isFree, l = .pipeClose p isFree → closesPipe c.shared p = false → isFree = false

/-- An open session of which nothing was closed. -/
def opened (flags : Flags) (pIo : Bool) (pipeStatus : P → PipeStatus) :
    Config (SessionS P) (Local P) :=
  ⟨⟨⟨clearFlag flags sessionGoawayRecv, 0⟩, pIo, pipeStatus, 0⟩, []⟩

/-- The units are those of the tasks, and session_close_func has run, or is about to, when the
session is idle. -/
structure Inv (c : Config (SessionS P) (Local P)) : Prop where
  useing : c.shared.status.useing = c.total units
  idle : Idle c.shared.status → c.shared.closeRuns + c.total closing = 1
  busy : ¬ Idle c.shared.status → c.shared.closeRuns + c.total closing = 0

omit [DecidableEq P] in
theorem Inv.sound {c : Config (SessionS P) (Local P)} (inv : Inv c) : Sound c := by
  by_cases idle : Idle c.shared.status
  · have runs := inv.idle idle
    have none : c.total units = 0 := inv.useing.symm.trans idle.2
    exact ⟨Nat.le_of_eq runs, fun _ => none, fun _ _ zero => by omega⟩
  · have runs := inv.busy idle
    refine ⟨by omega, by omega, ?_⟩
    intro marked none _
    exact absurd ⟨marked, inv.useing.trans none⟩ idle

theorem goaway_set (flags : Flags) (b : Bool) :
    hasFlag (setFlag flags (goawayIf b)) sessionGoawayRecv = (hasFlag flags sessionGoawayRecv || b) ∧
      setFlag (setFlag flags (goawayIf b)) sessionGoawayRecv = setFlag flags sessionGoawayRecv := by
  revert flags b
  decide

theorem goaway_clear (flags : Flags) :
    hasFlag (clearFlag flags sessionGoawayRecv) sessionGoawayRecv = false := by
  revert flags
  decide

theorem goaway_flags (flags flags' : Flags) :
    hasFlag (setFlag (clearFlag flags taskFlags) (flags' &&& taskFlags)) sessionGoawayRecv =
      hasFlag flags sessionGoawayRecv := by
  have others : flags' &&& taskFlags &&& sessionGoawayRecv = 0#8 := by
    rw [BitVec.and_assoc]
    exact BitVec.and_zero
  have own : clearFlag flags taskFlags &&& sessionGoawayRecv = flags &&& sessionGoawayRecv := by
    revert flags
    decide
  rw [hasFlag, hasFlag, setFlag, BitVec.and_or_distrib_right, own, others, BitVec.or_zero]

section steps
variable {g g' : SessionS P} {l l' : Local P} {pre post : List (Local P)}

omit [DecidableEq P] in
/-- A section that adds `b` to the mark and takes `n` units from the word. -/
theorem mark_keeps {w : Word} {b isFree : Bool} {n m runs closes : Nat}
    (useing : w.useing = n + m) (idle : Idle w → runs + closes = 1)
    (busy : ¬ Idle w → runs + closes = 0) (unfreed : isSessionFreed w = false)
    (clean : (isSessionClosed w = true ∨ b = true) ∧ w.useing = n → ¬ Idle w → Exact w.flags)
    (free : isFree = isSessionFreed ⟨setFlag w.flags (goawayIf b), w.useing - n⟩) :
    (Idle ⟨setFlag w.flags (goawayIf b), w.useing - n⟩ →
        runs + (closing (behind isFree : Local P) + closes) = 1) ∧
      (¬ Idle ⟨setFlag w.flags (goawayIf b), w.useing - n⟩ →
        runs + (closing (behind isFree : Local P) + closes) = 0) := by
  obtain ⟨mark, exact'⟩ := goaway_set w.flags b
  have after : Idle ⟨setFlag w.flags (goawayIf b), w.useing - n⟩ ↔
      (isSessionClosed w = true ∨ b = true) ∧ m = 0 := by
    rw [Idle, isSessionClosed, mark, Bool.or_eq_true, isSessionClosed]
    dsimp only
    rw [useing, Nat.add_sub_cancel_left]
  have freed : isFree = true ↔ Idle ⟨setFlag w.flags (goawayIf b), w.useing - n⟩ ∧ Exact w.flags := by
    rw [free, isSessionFreed_iff_exact, Exact, exact', Exact]
  by_cases before : Idle w
  · have runs := idle before
    obtain ⟨marked, none⟩ := before
    have idleAfter := after.mpr ⟨.inl marked, by omega⟩
    have no : isFree = false := by
      have inexact : ¬ Exact w.flags := by
        intro exact'
        have yes := (isSessionFreed_iff_exact w).mpr ⟨⟨marked, none⟩, exact'⟩
        rw [unfreed] at yes
        contradiction
      rw [← Bool.not_eq_true, freed]
      exact fun both => inexact both.2
    rw [no]
    exact ⟨fun _ => by simpa [behind, closing] using runs, fun other => absurd idleAfter other⟩
  · have none := busy before
    by_cases idleAfter : Idle ⟨setFlag w.flags (goawayIf b), w.useing - n⟩
    · obtain ⟨marked, zero⟩ := after.mp idleAfter
      have yes := freed.mpr ⟨idleAfter, clean ⟨marked, by omega⟩ before⟩
      rw [yes]
      exact ⟨fun _ => by simp only [behind, if_true, closing]; omega,
        fun other => absurd idleAfter other⟩
    · have no : isFree = false := by
        rw [← Bool.not_eq_true, freed]
        exact fun both => idleAfter both.1
      rw [no]
      exact ⟨fun is => absurd is idleAfter, fun _ => by simpa [behind, closing] using none⟩

omit [DecidableEq P] in
theorem behind_units (isFree : Bool) : units (behind isFree : Local P) = 0 := by
  cases isFree with
  | true => rfl
  | false => rfl

theorem step_keeps {a : Answer} (inv : Inv ⟨g, pre ++ l :: post⟩)
    (clean : CleanStep category ⟨g, pre ++ l :: post⟩ l)
    (acted : step category a g l = some (g', l')) : Inv ⟨g', pre ++ l' :: post⟩ := by
  obtain ⟨useing, idle, busy⟩ := inv
  simp only [total_split] at useing idle busy
  cases l with
  | task =>
    rw [step] at acted
    split at acted
    · cases acted
      constructor <;> simp only [total_split]
      · exact useing
      · exact idle
      · exact busy
    · rename_i enters
      cases acted
      have unmarked : ¬ isSessionClosed g.status = true := fun marked => enters (.inl marked)
      have before : ¬ Idle g.status := fun is => unmarked is.1
      constructor <;> simp only [total_split]
      · simp only [units] at useing ⊢
        omega
      · intro is
        exact absurd is.1 unmarked
      · intro _
        exact busy before
  | running =>
    cases acted
    constructor <;> simp only [total_split]
    · exact useing
    · exact idle
    · exact busy
  | trigerFree goaway n =>
    cases acted
    rw [trigerFree]
    cases freed : isSessionFreed g.status with
    | true =>
      have none := ((isSessionFreed_iff g.status).mp freed).2
      simp only [units] at useing
      constructor <;> simp only [total_split, if_true]
      · simp only [behind, Bool.false_eq_true, if_false, units]
        omega
      · exact idle
      · exact busy
    | false =>
      simp only [closing, Nat.zero_add] at idle busy
      have marks := mark_keeps (P := P) useing idle busy freed clean.1 rfl
      constructor <;> simp only [total_split, Bool.false_eq_true, if_false]
      · rw [behind_units]
        simp only [units] at useing
        omega
      · exact marks.1
      · exact marks.2
  | pipeClose p isFree =>
    rw [step] at acted
    cases closes : closesPipe g p with
    | true =>
      have unfreed : isSessionFreed g.status = false := by
        rw [closesPipe, Bool.and_eq_true, Bool.not_eq_true'] at closes
        exact closes.1
      simp only [closes, if_true] at acted
      cases acted
      simp only [units, closing, Nat.zero_add] at useing idle busy
      have marks := mark_keeps (P := P) (n := 0) (useing.trans (Nat.zero_add _).symm) idle busy
        unfreed (fun both => clean.1 ⟨closes, both.1, both.2⟩) rfl
      constructor <;> simp only [total_split]
      · rw [behind_units, Nat.zero_add]
        exact useing
      · exact marks.1
      · exact marks.2
    | false =>
      have no := clean.2 p isFree rfl closes
      subst no
      simp only [closes, Bool.false_eq_true, if_false] at acted
      cases acted
      constructor <;> simp only [total_split]
      · exact useing
      · exact idle
      · exact busy
  | flags =>
    cases acted
    have same := goaway_flags g.status.flags a.flags
    have after : Idle { g.status with
        flags := setFlag (clearFlag g.status.flags taskFlags) (a.flags &&& taskFlags) } ↔
          Idle g.status := by
      rw [Idle, isSessionClosed, same, Idle, isSessionClosed]
    constructor <;> simp only [total_split]
    · exact useing
    · rw [after]
      exact idle
    · rw [after]
      exact busy
  | closeFunc =>
    cases acted
    simp only [closing] at idle busy
    constructor <;> simp only [total_split]
    · exact useing
    · intro is
      have := idle is
      simp only [closing]
      omega
    · intro other
      have := busy other
      omega
  | done => cases acted

omit [DecidableEq P] in
theorem start_keeps {e : Request P} {ls : List (Local P)} (inv : Inv ⟨g, ls⟩)
    (entered : start e g = some (g', l)) : Inv ⟨g', ls ++ [l]⟩ := by
  have fresh : g' = g ∧ units l = 0 ∧ closing l = 0 := by
    cases e with
    | task | closeSession | flags =>
      cases entered
      exact ⟨rfl, rfl, rfl⟩
    | pipeClose p isFree =>
      cases entered
      exact ⟨rfl, rfl, rfl⟩
  obtain ⟨rfl, noUnits, noClose⟩ := fresh
  obtain ⟨useing, idle, busy⟩ := inv
  constructor
  · rw [total_start units g' g', noUnits]
    exact useing
  · rw [total_start closing g' g', noClose]
    exact idle
  · rw [total_start closing g' g', noClose]
    exact busy

end steps

/-- The session is closed once and in time as long as the section that makes it idle finds the
flags that IS_SESSION_FREED asks for, and no call reads is_free unset. -/
theorem close_once (flags : Flags) (pIo : Bool) (pipeStatus : P → PipeStatus)
    {c : Config (SessionS P) (Local P)}
    (run : (protocol category).ReachesWhere (CleanStep category) (opened flags pIo pipeStatus) c) :
    Sound c := by
  apply Inv.sound
  refine Program.ReachesWhere.invariant ?_ ?_ ?_ run
  · refine ⟨rfl, ?_, fun _ => rfl⟩
    rintro ⟨marked, _⟩
    have unmarked := goaway_clear flags
    rw [isSessionClosed] at marked
    exact absurd (marked.symm.trans unmarked) (by decide)
  · intro e g g' l ls inv entered
    exact start_keeps inv entered
  · intro a g g' l l' pre post inv clean acted
    exact step_keeps inv clean acted

end

section example_sessions

/-- The session with the given flags, and one pipe. -/
def exampleSession (flags : Flags) (closeRuns : Nat) : SessionS Unit :=
  ⟨⟨flags, 0⟩, true, fun _ => .active, closeRuns⟩

/-- A session with SESSION_GOAWAY_SEND and SESSION_RECVING is closed. -/
theorem close_exact : Sound (⟨exampleSession 0x7 1, [.done]⟩ : Config (SessionS Unit) (Local Unit)) := by
  have entered : (protocol fun _ : Unit => Category.control).StepWhere
      (CleanStep fun _ => .control) (opened 0x6 true fun _ => .active)
        ⟨exampleSession 0x6 0, [.trigerFree true 0]⟩ := .start (e := .closeSession) rfl
  have marked : (protocol fun _ : Unit => Category.control).StepWhere
      (CleanStep fun _ => .control) ⟨exampleSession 0x6 0, [] ++ .trigerFree true 0 :: []⟩
        ⟨exampleSession 0x7 0, [] ++ .closeFunc :: []⟩ := by
    apply Program.StepWhere.step (a := ⟨0, false⟩)
    · refine ⟨fun _ _ => rfl, ?_⟩
      intro p isFree same
      cases same
    · rfl
  have closed : (protocol fun _ : Unit => Category.control).StepWhere
      (CleanStep fun _ => .control) ⟨exampleSession 0x7 0, [] ++ .closeFunc :: []⟩
        ⟨exampleSession 0x7 1, [] ++ .done :: []⟩ := by
    apply Program.StepWhere.step (a := ⟨0, false⟩)
    · refine ⟨fun leaves => leaves.elim, ?_⟩
      intro p isFree same
      cases same
    · rfl
  exact close_once 0x6 true (fun _ => .active) (.tail (.tail (.single entered) marked) closed)

/-- A session without them is never closed. -/
theorem close_never : ∃ c : Config (SessionS Unit) (Local Unit),
    (protocol fun _ => .control).Reaches (opened 0 true fun _ => .active) c ∧ ¬ Sound c := by
  have entered : (protocol fun _ : Unit => Category.control).Step (opened 0 true fun _ => .active)
      ⟨exampleSession 0 0, [.trigerFree true 0]⟩ := .start (e := .closeSession) rfl
  have marked : (protocol fun _ : Unit => Category.control).Step
      ⟨exampleSession 0 0, [.trigerFree true 0]⟩ ⟨exampleSession 0x1 0, [.done]⟩ :=
    .alone (a := ⟨0, false⟩) rfl
  refine ⟨_, .tail (.single entered) marked, ?_⟩
  intro sound
  have ran := sound.closed rfl rfl rfl
  cases ran

end example_sessions

end MoonInWater.Session.SessionClose
