import MoonInWater.Lib.Threads
import MoonInWater.Lib.RefWord

/-! The using reference of moon_common.h: an `int` whose low four bits are a
status and whose upper bits count users. Each read of the word, each compare
and swap, each atomic subtract and the call of the close function is one step. -/
namespace MoonInWater.UseingRef
open CInt Threads RefWord

/-- STATUS_CLOSED, all four status bits. -/
def statusClosed : Int := 0x0f

/-- USEING_REF_UNIT. -/
def useingRefUnit : Int := 0x10

def Closed (status : Int) : Prop := nibble status = statusClosed

instance (status : Int) : Decidable (Closed status) := inferInstanceAs (Decidable (_ = _))

/-- Where a call of one of the three functions stands. `tmp` is the value that
its loop has read and tries to replace. -/
inductive RefPc where
  | inc
  | incSwap (tmp : Int)
  | dec
  | close
  | closeSwap (tmp : Int)
deriving DecidableEq

/-- What one step leads to: a further step, a return, or the call of close_fun. -/
inductive RefNext where
  | goto (pc : RefPc)
  | ret (value : Int)
  | closeFun
deriving DecidableEq

/-- One atomic step of useing_ref_inc, useing_ref_dec or set_status_closed,
with the word it leaves. -/
def refStep (status : Int) : RefPc → Int × RefNext
  | .inc => (status, if Closed status then .ret (-1) else .goto (.incSwap status))
  | .incSwap tmp =>
    -- an overflow of the count is printed and the reference is still given
    if status = tmp then (i32 (tmp + useingRefUnit), .ret 0) else (status, .goto .inc)
  | .dec =>
    let tmp := i32 (status - useingRefUnit)
    (tmp, if tmp < 0 then .ret 0 else if tmp = statusClosed then .closeFun else .ret 0)
  | .close => (status, if Closed status then .ret 0 else .goto (.closeSwap status))
  | .closeSwap tmp =>
    if status = tmp then
      (tmp - nibble tmp + statusClosed, if tmp < useingRefUnit then .closeFun else .ret 0)
    else (status, .goto .close)

/-- References of the caller after a step at `pc`: the swap of an increment takes
one, the subtract gives one back. -/
def RefNext.held (pc : RefPc) (held : Nat) : RefNext → Nat
  | .goto _ => held
  | _ => match pc with
    | .incSwap _ => held + 1
    | .dec => held - 1
    | _ => held

def RefNext.owes : RefNext → Nat
  | .closeFun => 1
  | _ => 0

/-- The loops swap only a value that they have read open. -/
def RefPc.Ok (held : Nat) : RefPc → Prop
  | .incSwap tmp | .closeSwap tmp => ¬ Closed tmp
  | .dec => 0 < held
  | _ => True

theorem held_grows {pc : RefPc} {next : RefNext} (grows : held < next.held pc held) :
    ∃ tmp, pc = .incSwap tmp := by
  cases next <;> cases pc <;> simp [RefNext.held] at grows ⊢ <;> omega

theorem closed_shift (w : Int) : Closed (w + 16) ↔ Closed w := by
  simp only [Closed, nibble, statusClosed]
  omega

theorem refStep_effect (status : Int) (made : Nat) {pc : RefPc} (ok : pc.Ok held) :
    Effect Closed ⟨status, held, 0, made⟩
      ⟨(refStep status pc).1, (refStep status pc).2.held pc held,
        (refStep status pc).2.owes, made⟩ := by
  cases pc with
  | inc =>
    simp only [refStep]
    split <;> exact .move
  | incSwap tmp =>
    simp only [refStep]
    split
    · subst tmp
      exact .grant ok
    · exact .move
  | dec =>
    obtain ⟨rest, rfl⟩ := Nat.exists_eq_succ_of_ne_zero (Nat.ne_of_gt ok)
    have last : (i32 (status - 16) = 15 ↔
        0 ≤ i32 (status - 16) ∧ i32 (status - 16) < 16 ∧ Closed (i32 (status - 16))) := by
      simp only [Closed, nibble, statusClosed]
      omega
    by_cases run : i32 (status - 16) = 15
    · have step : refStep status .dec = (i32 (status - 16), .closeFun) := by
        simp [refStep, useingRefUnit, statusClosed, run]
      rw [step]
      exact .giveBack rfl (Nat.le_refl _) (iff_of_true rfl (last.mp run))
    · have step : refStep status .dec = (i32 (status - 16), .ret 0) := by
        simp [refStep, useingRefUnit, statusClosed, run]
      rw [step]
      exact .giveBack rfl (Nat.zero_le _) (iff_of_false Nat.zero_ne_one (mt last.mpr run))
  | close =>
    simp only [refStep]
    split <;> exact .move
  | closeSwap tmp =>
    simp only [refStep]
    split
    · subst tmp
      have marked : Closed (status - nibble status + statusClosed) := by
        simp only [Closed, nibble, statusClosed]
        omega
      have same : (status - nibble status + statusClosed) / 16 = status / 16 := by
        simp only [nibble, statusClosed]
        omega
      split
      · exact .mark ok marked same (Nat.le_refl _) (by simpa [RefNext.owes])
      · exact .mark ok marked same (Nat.zero_le _)
          (by simpa [RefNext.owes, useingRefUnit] using Int.not_lt.mp ‹_›)
    · exact .move

/-- A loop goes round without having touched the word. -/
theorem refStep_goto (went : refStep status pc = (status', .goto next)) :
    status' = status ∧
      ((pc = .inc ∧ ¬ Closed status ∧ next = .incSwap status) ∨
        (∃ tmp, pc = .incSwap tmp ∧ next = .inc) ∨
        (pc = .close ∧ ¬ Closed status ∧ next = .closeSwap status) ∨
        ∃ tmp, pc = .closeSwap tmp ∧ next = .close) := by
  cases pc with
  | inc =>
    simp only [refStep] at went
    split at went <;> cases went
    exact ⟨rfl, .inl ⟨rfl, ‹_›, rfl⟩⟩
  | incSwap tmp =>
    simp only [refStep] at went
    split at went <;> cases went
    exact ⟨rfl, .inr (.inl ⟨tmp, rfl, rfl⟩)⟩
  | close =>
    simp only [refStep] at went
    split at went <;> cases went
    exact ⟨rfl, .inr (.inr (.inl ⟨rfl, ‹_›, rfl⟩))⟩
  | closeSwap tmp =>
    simp only [refStep] at went
    split at went
    · split at went <;> cases went
    · cases went
      exact ⟨rfl, .inr (.inr (.inr ⟨tmp, rfl, rfl⟩))⟩
  | dec =>
    simp only [refStep] at went
    split at went
    · cases went
    · split at went <;> cases went

theorem refStep_goto_ok (went : refStep status pc = (status', .goto next)) : next.Ok held := by
  obtain ⟨rfl, ⟨rfl, opened, rfl⟩ | ⟨tmp, rfl, rfl⟩ | ⟨rfl, opened, rfl⟩ | ⟨tmp, rfl, rfl⟩⟩ :=
    refStep_goto went
  · exact opened
  · trivial
  · exact opened
  · trivial

inductive Pc where
  | idle
  | ref (pc : RefPc)
  | closeFun
deriving DecidableEq

/-- A thread, the references it holds, and two marks for the statements: whether
its running useing_ref_inc started after the close mark, and how many calls that
did so were granted. -/
structure Thread where
  pc : Pc
  held : Nat
  late : Bool
  lateGrants : Nat
deriving DecidableEq

structure Shared where
  status : Int
  closeRuns : Nat
deriving DecidableEq

inductive Op where
  | inc
  | dec
  | close
deriving DecidableEq

def Thread.after (t : Thread) (pc : RefPc) (next : RefNext) : Thread where
  pc := match next with
    | .goto pc => .ref pc
    | .ret _ => .idle
    | .closeFun => .closeFun
  held := next.held pc t.held
  late := t.late
  lateGrants := t.lateGrants + if t.held < next.held pc t.held then t.late.toNat else 0

/-- An idle thread starts a call; it decrements only a reference that it holds. -/
def step (op : Op) (g : Shared) (t : Thread) : Option (Shared × Thread) :=
  match t.pc with
  | .idle =>
    match op with
    | .inc => some (g, { t with pc := .ref .inc, late := decide (Closed g.status) })
    | .dec => if t.held = 0 then none else some (g, { t with pc := .ref .dec })
    | .close => some (g, { t with pc := .ref .close })
  | .ref pc =>
    let (status, next) := refStep g.status pc
    some ({ g with status := status }, t.after pc next)
  | .closeFun => some ({ g with closeRuns := g.closeRuns + 1 }, { t with pc := .idle })

def protocol : Program Shared Thread Unit Op where
  start _ g := some (g, ⟨.idle, 0, false, 0⟩)
  step := step

/-- No thread yet, a word with an open status and no users. -/
def initial (status : Int) : Config Shared Thread := ⟨⟨status, 0⟩, []⟩

def outstanding (c : Config Shared Thread) : Nat := c.total Thread.held

def Thread.closing (t : Thread) : Nat := if t.pc = .closeFun then 1 else 0

/-- Only the read of an increment looks at the word, and a closed word stays
closed. -/
def Thread.Ok (status : Int) (t : Thread) : Prop :=
  t.lateGrants = 0 ∧ match t.pc with
  | .ref pc => pc.Ok t.held ∧ (t.late = true → ∀ tmp, pc ≠ .incSwap tmp) ∧
      (t.late = true → pc = .inc → Closed status)
  | _ => True

theorem Thread.Ok.mono {t : Thread} (ok : t.Ok status) (stays : Closed status → Closed status') :
    t.Ok status' := by
  refine ⟨ok.1, ?_⟩
  have point := ok.2
  split at point
  · exact ⟨point.1, point.2.1, fun late inc => stays (point.2.2 late inc)⟩
  · trivial

def view (g : Shared) (t : Thread) : View := ⟨g.status, t.held, t.closing, g.closeRuns⟩

theorem step_effect {t : Thread} (ok : t.Ok g.status) (acted : step op g t = some (g', t')) :
    Effect Closed (view g t) (view g' t') := by
  obtain ⟨pc, held, late, lateGrants⟩ := t
  cases pc with
  | idle =>
    cases op with
    | inc | close =>
      cases acted
      exact .move
    | dec =>
      simp only [step] at acted
      split at acted
      · contradiction
      · cases acted
        exact .move
  | closeFun =>
    cases acted
    exact .run
  | ref pc =>
    have effect := refStep_effect g.status g.closeRuns ok.2.1
    rcases stepped : refStep g.status pc with ⟨status, next⟩
    simp only [step, stepped] at acted effect
    cases acted
    cases next <;> exact effect

theorem step_ok {t : Thread} (ok : t.Ok g.status) (acted : step op g t = some (g', t')) :
    t'.Ok g'.status := by
  obtain ⟨pc, held, late, lateGrants⟩ := t
  obtain ⟨noLate, point⟩ := ok
  cases pc with
  | idle =>
    cases op with
    | inc =>
      cases acted
      exact ⟨noLate, trivial, by simp, fun late _ => of_decide_eq_true late⟩
    | dec =>
      simp only [step] at acted
      split at acted
      · contradiction
      · cases acted
        exact ⟨noLate, Nat.pos_of_ne_zero ‹_›, by simp, by simp⟩
    | close =>
      cases acted
      exact ⟨noLate, trivial, by simp, by simp⟩
  | closeFun =>
    cases acted
    exact ⟨noLate, trivial⟩
  | ref pc =>
    obtain ⟨pcOk, early, read⟩ := point
    rcases stepped : refStep g.status pc with ⟨status, next⟩
    have noGrant : (if held < next.held pc held then late.toNat else 0) = 0 := by
      split
      · obtain ⟨tmp, rfl⟩ := held_grows ‹_›
        cases late with
        | false => rfl
        | true => exact absurd rfl (early rfl tmp)
      · rfl
    simp only [step, stepped] at acted
    cases acted
    refine ⟨by simpa [Thread.after, noGrant] using noLate, ?_⟩
    cases next with
    | goto next =>
      have nextOk : next.Ok held := refStep_goto_ok stepped
      obtain ⟨rfl, ⟨rfl, opened, rfl⟩ | ⟨tmp, rfl, rfl⟩ | ⟨rfl, opened, rfl⟩ | ⟨tmp, rfl, rfl⟩⟩ :=
        refStep_goto stepped
      · exact ⟨nextOk, fun late => absurd (read late rfl) opened, by simp⟩
      · exact ⟨nextOk, by simp, fun late _ => absurd rfl (early late tmp)⟩
      · exact ⟨nextOk, by simp, by simp⟩
      · exact ⟨nextOk, by simp, by simp⟩
    | ret => trivial
    | closeFun => trivial

/-- Every thread has kept the rules, and the close runs made and due are settled
with the references that are out. -/
structure Invariant (c : Config Shared Thread) : Prop where
  threads : ∀ t ∈ c.calls, t.Ok c.shared.status
  settled : Settled Closed c.shared.status (outstanding c)
    (c.shared.closeRuns + c.total Thread.closing)

theorem initial_invariant (opened : ¬ Closed status) (noUser : 0 ≤ status) (small : status < 16) :
    Invariant (initial status) where
  threads := by simp [initial]
  settled := by
    refine ⟨⟨?_, Nat.two_pow_pos 27⟩, fun closed => absurd closed opened, fun _ => rfl⟩
    simp only [initial, outstanding, total_nil]
    omega

theorem start_invariant (inv : Invariant ⟨g, ls⟩) (started : protocol.start e g = some (g', t)) :
    Invariant ⟨g', ls ++ [t]⟩ := by
  cases started
  refine ⟨forall_start inv.threads ⟨rfl, trivial⟩ fun _ => id, ?_⟩
  have settled := inv.settled
  simp only [outstanding, total_start _ g g] at settled ⊢
  exact settled

theorem step_invariant (inv : Invariant ⟨g, pre ++ t :: post⟩) (acted : step op g t = some (g', t'))
    (room : outstanding ⟨g', pre ++ t' :: post⟩ < 2 ^ 27) :
    Invariant ⟨g', pre ++ t' :: post⟩ := by
  have ok := inv.threads t (by simp)
  have settled := inv.settled
  simp only [outstanding, total_split] at settled room
  obtain ⟨settled', stays⟩ := (step_effect ok acted).settled closed_shift settled room
  refine ⟨forall_split inv.threads (step_ok ok acted) fun _ _ ok => ok.mono stays, ?_⟩
  simp only [outstanding, total_split]
  exact settled'

/-- The runs in which the 27-bit count of references never overflows. -/
abbrev Runs := protocol.ReachesWithin (fun c => outstanding c < 2 ^ 27)

theorem runs_invariant (opened : ¬ Closed status) (noUser : 0 ≤ status) (small : status < 16)
    (run : Runs (initial status) c) : Invariant c :=
  Program.ReachesWithin.invariant (initial_invariant opened noUser small)
    (fun inv started _ => start_invariant inv started)
    (fun inv acted room => step_invariant inv acted room) run

/-- The close function runs at most once and under no reference, it has run or is
being called as soon as the word is closed and unused, and no reference is
granted to a call that started after the close mark. -/
theorem useing_ref_protocol (opened : ¬ Closed status) (noUser : 0 ≤ status) (small : status < 16)
    (run : Runs (initial status) c) :
    c.shared.closeRuns ≤ 1 ∧
      (∀ t ∈ c.calls, t.pc = .closeFun → outstanding c = 0 ∧ c.shared.closeRuns = 0) ∧
      (0 < c.shared.closeRuns → Closed c.shared.status ∧ outstanding c = 0) ∧
      (Closed c.shared.status → outstanding c = 0 →
        c.shared.closeRuns = 1 ∨ ∃ t ∈ c.calls, t.pc = .closeFun) ∧
      ∀ t ∈ c.calls, t.lateGrants = 0 := by
  obtain ⟨threads, settled⟩ := runs_invariant opened noUser small run
  have once := settled.calls_le
  refine ⟨by omega, ?_, ?_, ?_, fun t member => (threads t member).1⟩
  · intro t member closing
    have one : t.closing = 1 := if_pos closing
    have part : t.closing ≤ c.total Thread.closing := weight_le_total member
    exact ⟨(settled.unused (by omega)).2, by omega⟩
  · intro some
    exact settled.unused (by omega)
  · intro closed none
    have due := settled.due closed none
    by_cases made : c.shared.closeRuns = 1
    · exact .inl made
    · have left : 0 < c.total Thread.closing := by omega
      obtain ⟨t, member, positive⟩ := exists_of_total_pos left
      refine .inr ⟨t, member, ?_⟩
      by_contra elsewhere
      simp [Thread.closing, elsewhere] at positive

/-- A reference is taken and the word closed under it: the subtract runs the
close function. -/
theorem useing_ref_protocol_closed :
    let c : Config Shared Thread := ⟨⟨15, 1⟩, [⟨.idle, 0, false, 0⟩, ⟨.idle, 0, false, 0⟩]⟩
    c.shared.closeRuns ≤ 1 ∧ ∀ t ∈ c.calls, t.lateGrants = 0 := by
  have executed : protocol.exec (fun c => outstanding c < 2 ^ 27)
      [.inl (), .inl (), .inr (0, .inc), .inr (0, .inc), .inr (0, .inc), .inr (1, .close),
        .inr (1, .close), .inr (1, .close), .inr (0, .dec), .inr (0, .dec), .inr (0, .dec)]
      (initial 0) = some ⟨⟨15, 1⟩, [⟨.idle, 0, false, 0⟩, ⟨.idle, 0, false, 0⟩]⟩ := by
    with_unfolding_all rfl
  have run : Runs (initial 0) _ := Program.exec_reaches executed
  have holds := useing_ref_protocol (by decide) (by decide) (by decide) run
  exact ⟨holds.1, holds.2.2.2.2⟩

/-- One granted reference more, with no other thread around. -/
theorem grant_reaches (opened : ¬ Closed status)
    (run : protocol.Reaches c ⟨⟨status, 0⟩, [⟨.idle, n, false, 0⟩]⟩) :
    protocol.Reaches c
      ⟨⟨i32 (status + useingRefUnit), 0⟩, [⟨.idle, n + 1, false, 0⟩]⟩ := by
  have called : protocol.step .inc ⟨status, 0⟩ ⟨.idle, n, false, 0⟩ =
      some (⟨status, 0⟩, ⟨.ref .inc, n, false, 0⟩) := by
    simp [protocol, step, opened]
  have read : protocol.step .inc ⟨status, 0⟩ ⟨.ref .inc, n, false, 0⟩ =
      some (⟨status, 0⟩, ⟨.ref (.incSwap status), n, false, 0⟩) := by
    simp [protocol, step, refStep, opened, Thread.after, RefNext.held]
  have swapped : protocol.step .inc ⟨status, 0⟩ ⟨.ref (.incSwap status), n, false, 0⟩ =
      some (⟨i32 (status + useingRefUnit), 0⟩, ⟨.idle, n + 1, false, 0⟩) := by
    simp [protocol, step, refStep, Thread.after, RefNext.held]
  exact ((run.tail (.alone called)).tail (.alone read)).tail (.alone swapped)

theorem grants_reach (n : Nat) :
    protocol.Reaches (initial 0) ⟨⟨i32 (16 * n), 0⟩, [⟨.idle, n, false, 0⟩]⟩ := by
  induction n with
  | zero =>
    have zero : i32 (16 * (0 : Nat)) = 0 := i32_eq (by decide) (by decide)
    rw [zero]
    have started : protocol.start () ⟨0, 0⟩ = some (⟨0, 0⟩, ⟨.idle, 0, false, 0⟩) := rfl
    exact .single (.start started)
  | succ n ih =>
    have opened : ¬ Closed (i32 (16 * n)) := by
      simp only [Closed, nibble, statusClosed, i32]
      omega
    have sum : i32 (i32 (16 * n) + useingRefUnit) = i32 (16 * (n + 1 : Nat)) := by
      simp only [i32, useingRefUnit]
      omega
    exact sum ▸ grant_reaches opened ih

/-- set_status_closed on an open word below the unit calls the close function,
whatever the caller still holds. -/
theorem close_reaches (opened : ¬ Closed status) (small : status < useingRefUnit)
    (run : protocol.Reaches c ⟨⟨status, 0⟩, [⟨.idle, n, false, 0⟩]⟩) :
    protocol.Reaches c
      ⟨⟨status - nibble status + statusClosed, 1⟩, [⟨.idle, n, false, 0⟩]⟩ := by
  have read : protocol.step .close ⟨status, 0⟩ ⟨.ref .close, n, false, 0⟩ =
      some (⟨status, 0⟩, ⟨.ref (.closeSwap status), n, false, 0⟩) := by
    simp [protocol, step, refStep, opened, Thread.after, RefNext.held]
  have marked : protocol.step .close ⟨status, 0⟩ ⟨.ref (.closeSwap status), n, false, 0⟩ =
      some (⟨status - nibble status + statusClosed, 0⟩, ⟨.closeFun, n, false, 0⟩) := by
    simp [protocol, step, refStep, small, Thread.after, RefNext.held]
  have called : protocol.step .close ⟨status, 0⟩ ⟨.idle, n, false, 0⟩ =
      some (⟨status, 0⟩, ⟨.ref .close, n, false, 0⟩) := rfl
  have ran : protocol.step .close ⟨status - nibble status + statusClosed, 0⟩
      ⟨.closeFun, n, false, 0⟩ =
      some (⟨status - nibble status + statusClosed, 1⟩, ⟨.idle, n, false, 0⟩) := rfl
  exact (((run.tail (.alone called)).tail (.alone read)).tail (.alone marked)).tail (.alone ran)

/-- The count has 27 bits: the increment number 2^27 makes the word negative, and
a close then runs the close function under 2^27 references. -/
theorem close_runs_under_overflow :
    ∃ c, protocol.Reaches (initial 0) c ∧ c.shared.closeRuns = 1 ∧ outstanding c = 2 ^ 27 := by
  have full : i32 (16 * (2 ^ 27 : Nat)) = -2147483648 := by simp [i32]
  have run := grants_reach (2 ^ 27)
  rw [full] at run
  refine ⟨_, close_reaches (by decide) (by decide) run, rfl, ?_⟩
  simp [outstanding, Config.total]

end MoonInWater.UseingRef
