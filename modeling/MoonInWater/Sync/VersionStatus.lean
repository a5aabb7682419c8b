import MoonInWater.Common.UseingRef

/-! The status word of a version: NORMAL until it is marked old, CLOSED once it is old and
without users, and between them an old version that users may still join. -/
namespace MoonInWater.Sync.VersionStatus
open CInt Threads UseingRef

/-- VERSION_STATUS_NORMAL. -/
def versionStatusNormal : Int := 0x0

/-- VERSION_STATUS_OLD. -/
def versionStatusOld : Int := 0x1

/-- VERSION_STATUS_CLOSED. -/
def versionStatusClosed : Int := statusClosed

/-- Where a call stands; `tmp` is what its loop has read and tries to replace. -/
inductive VersionPc where
  | idle
  | incVersionUserNum (pc : RefPc)
  | versionUserNumInc
  | versionUserNumDec
  | decVersionUserNum
  | decSwap (tmp : Int)
  | setVersionStatusOld
  | oldSwap (tmp : Int)
  | versionCloseFunc
deriving DecidableEq

/-- The marks `oldBegun` and `oldDone` count the calls of set_version_status_old, and `late`
the users that were let in while the status was closed. -/
structure Version where
  status : Int
  userNum : Int
  closeRuns : Nat
  oldBegun : Nat
  oldDone : Nat
  late : Nat
deriving DecidableEq

/-- A thread with the references that it holds. -/
structure User where
  pc : VersionPc
  held : Nat
deriving DecidableEq

inductive Op where
  | inc
  | dec
  | old
deriving DecidableEq

/-- The value that set_version_status_old puts in place of `tmp`. -/
def oldValue (tmp : Int) : Int :=
  if tmp = versionStatusNormal then versionStatusClosed else tmp - nibble tmp + versionStatusOld

/-- The value that dec_version_user_num puts in place of `tmp`. -/
def decValue (tmp : Int) : Int :=
  if tmp = versionStatusOld + useingRefUnit then versionStatusClosed else i32 (tmp - useingRefUnit)

def decCloses (tmp : Int) : Prop :=
  tmp = versionStatusOld + useingRefUnit ∨ tmp = versionStatusClosed + useingRefUnit

instance (tmp : Int) : Decidable (decCloses tmp) := inferInstanceAs (Decidable (_ ∨ _))

/-- One load, swap, atomic add or call of version_close_func. -/
def step (op : Op) (g : Version) (u : User) : Option (Version × User) :=
  match u.pc with
  | .idle =>
    match op with
    | .inc => some (g, { u with pc := .incVersionUserNum .inc })
    | .dec => if u.held = 0 then none else some (g, { u with pc := .versionUserNumDec })
    | .old => some ({ g with oldBegun := g.oldBegun + 1 }, { u with pc := .setVersionStatusOld })
  | .incVersionUserNum pc =>
    match refStep g.status pc with
    | (status, .goto pc) => some ({ g with status := status }, { u with pc := .incVersionUserNum pc })
    | (status, .ret value) =>
      if value < 0 then some ({ g with status := status }, { u with pc := .idle })
      else some ({ g with status := status, late := g.late + if Closed g.status then 1 else 0 },
        ⟨.versionUserNumInc, u.held + 1⟩)
    | (_, .closeFun) => none
  | .versionUserNumInc => some ({ g with userNum := i32 (g.userNum + 1) }, { u with pc := .idle })
  | .versionUserNumDec =>
    some ({ g with userNum := i32 (g.userNum - 1) }, { u with pc := .decVersionUserNum })
  | .decVersionUserNum => some (g, { u with pc := .decSwap g.status })
  | .decSwap tmp =>
    if g.status = tmp then
      some ({ g with status := decValue tmp },
        ⟨if decCloses tmp then .versionCloseFunc else .idle, u.held - 1⟩)
    else some (g, { u with pc := .decVersionUserNum })
  | .setVersionStatusOld =>
    if nibble g.status = versionStatusNormal then some (g, { u with pc := .oldSwap g.status })
    else some ({ g with oldDone := g.oldDone + 1 }, { u with pc := .idle })
  | .oldSwap tmp =>
    if g.status = tmp then
      some ({ g with status := oldValue tmp, oldDone := g.oldDone + 1 },
        { u with pc := if tmp = versionStatusNormal then .versionCloseFunc else .idle })
    else some (g, { u with pc := .setVersionStatusOld })
  | .versionCloseFunc => some ({ g with closeRuns := g.closeRuns + 1 }, { u with pc := .idle })

def protocol : Program Version User Unit Op where
  start _ g := some (g, ⟨.idle, 0⟩)
  step := step

/-- A version of status NORMAL without users. -/
def initial : Config Version User := ⟨⟨versionStatusNormal, 0, 0, 0, 0, 0⟩, []⟩

def users (c : Config Version User) : Nat := c.total User.held

def User.closing (u : User) : Nat := if u.pc = .versionCloseFunc then 1 else 0

/-- What a call relies on. -/
def User.Ok (g : Version) (u : User) : Prop :=
  match u.pc with
  | .incVersionUserNum pc => pc.Ok u.held ∧ (pc = .inc ∨ ∃ tmp, pc = .incSwap tmp)
  | .versionUserNumDec | .decVersionUserNum | .decSwap _ => 0 < u.held
  | .setVersionStatusOld => 0 < g.oldBegun
  | .oldSwap tmp => 0 < g.oldBegun ∧ nibble tmp = versionStatusNormal
  | _ => True

theorem User.Ok.mono {u : User} {g g' : Version} (ok : u.Ok g) (begun : g.oldBegun ≤ g'.oldBegun) :
    u.Ok g' := by
  unfold User.Ok at ok ⊢
  split at ok
  · exact ok
  · exact ok
  · exact ok
  · exact ok
  · exact Nat.lt_of_lt_of_le ok begun
  · exact ⟨Nat.lt_of_lt_of_le ok.1 begun, ok.2⟩
  · trivial

/-- The word of a version with `n` users, and `k` runs of version_close_func made or due. -/
structure Life (g : Version) (n k : Nat) : Prop where
  word : g.status = 16 * n ∨ g.status = 16 * n + 1 ∧ 0 < n ∨ g.status = 15 ∧ n = 0
  room : n < 2 ^ 27
  runs : k = if g.status = 15 then 1 else 0
  marked : g.status ≠ 16 * n → 0 < g.oldBegun
  done : 0 < g.oldDone → g.status ≠ 16 * n
  late : g.late = 0

theorem Life.closed {g : Version} {n k : Nat} (life : Life g n k) : Closed g.status ↔ g.status = 15 := by
  have word := life.word
  simp only [Closed, nibble, statusClosed]
  omega

/-- A step that leaves the word, the references and the close runs. -/
theorem Life.same {g g' : Version} {n k : Nat} (life : Life g n k) (status : g'.status = g.status)
    (begun : g.oldBegun ≤ g'.oldBegun) (done : g'.oldDone = g.oldDone) (late : g'.late = g.late) :
    Life g' n k where
  word := by rw [status]; exact life.word
  room := life.room
  runs := by rw [status]; exact life.runs
  marked := by rw [status]; exact fun old => Nat.lt_of_lt_of_le (life.marked old) begun
  done := by rw [status, done]; exact life.done
  late := late.trans life.late

section
variable {g g' : Version} {u' : User} {held n k : Nat}

theorem inc_life {pc : RefPc} (inc : pc = .inc ∨ ∃ tmp, pc = .incSwap tmp) (ok : pc.Ok held)
    (life : Life g (held + n) (g.closeRuns + k)) (room : u'.held + n < 2 ^ 27)
    (acted : step .inc g ⟨.incVersionUserNum pc, held⟩ = some (g', u')) :
    Life g' (u'.held + n) (g'.closeRuns + (u'.closing + k)) ∧ u'.Ok g' ∧
      g'.oldBegun = g.oldBegun := by
  have word := life.word
  rcases inc with rfl | ⟨tmp, rfl⟩
  · by_cases closed : Closed g.status
    · simp only [step, refStep, if_pos closed] at acted
      cases acted
      refine ⟨?_, trivial, rfl⟩
      simpa [User.closing] using life
    · simp only [step, refStep, if_neg closed] at acted
      cases acted
      refine ⟨?_, ⟨closed, .inr ⟨_, rfl⟩⟩, rfl⟩
      simpa [User.closing] using life
  · by_cases hit : g.status = tmp
    · subst hit
      have opened : g.status ≠ 15 := fun closed => ok (life.closed.mpr closed)
      have calls : g.closeRuns + k = 0 := life.runs.trans (if_neg opened)
      simp only [step, refStep, if_true, Int.reduceLT, if_false] at acted
      cases acted
      have room : held + 1 + n < 2 ^ 27 := room
      have exact' : i32 (g.status + useingRefUnit) = g.status + 16 :=
        i32_eq (by simp only [useingRefUnit]; omega) (by simp only [useingRefUnit]; omega)
      refine ⟨⟨?_, room, ?_, ?_, ?_, ?_⟩, trivial, rfl⟩
      all_goals dsimp only
      · rw [exact']
        omega
      · rw [exact', if_neg (by omega)]
        simp only [User.closing, reduceCtorEq, if_false]
        omega
      · rw [exact']
        exact fun old => life.marked (by omega)
      · rw [exact']
        intro done
        have old := life.done done
        omega
      · rw [if_neg ok, life.late]
    · simp only [step, refStep, if_neg hit] at acted
      cases acted
      refine ⟨?_, ⟨trivial, .inl rfl⟩, rfl⟩
      simpa [User.closing] using life

theorem decSwap_life {tmp : Int} {op : Op} (holds : 0 < held)
    (life : Life g (held + n) (g.closeRuns + k))
    (acted : step op g ⟨.decSwap tmp, held⟩ = some (g', u')) :
    Life g' (u'.held + n) (g'.closeRuns + (u'.closing + k)) ∧ u'.Ok g' ∧
      g'.oldBegun = g.oldBegun := by
  have word := life.word
  have room := life.room
  by_cases hit : g.status = tmp
  · subst hit
    have opened : g.status ≠ 15 := by omega
    have calls : g.closeRuns + k = 0 := life.runs.trans (if_neg opened)
    simp only [step, if_true] at acted
    cases acted
    by_cases last : g.status = 17
    · have value : decValue g.status = 15 := if_pos last
      have closes : decCloses g.status := .inl last
      rw [value, if_pos closes]
      refine ⟨⟨?_, ?_, ?_, ?_, ?_, life.late⟩, trivial, rfl⟩
      all_goals dsimp only
      · omega
      · omega
      · simp only [User.closing, if_true]
        omega
      · exact fun _ => life.marked (by omega)
      · omega
    · have exact' : i32 (g.status - useingRefUnit) = g.status - 16 :=
        i32_eq (by simp only [useingRefUnit]; omega) (by simp only [useingRefUnit]; omega)
      have value : decValue g.status = g.status - 16 := (if_neg last).trans exact'
      have stays : ¬ decCloses g.status := by
        simp only [decCloses, versionStatusOld, versionStatusClosed, statusClosed, useingRefUnit]
        omega
      rw [value, if_neg stays]
      refine ⟨⟨?_, ?_, ?_, ?_, ?_, life.late⟩, trivial, rfl⟩
      all_goals dsimp only
      · omega
      · omega
      · rw [if_neg (by omega)]
        simp only [User.closing, reduceCtorEq, if_false]
        omega
      · exact fun old => life.marked (by omega)
      · intro done
        have old := life.done done
        omega
  · simp only [step, if_neg hit] at acted
    cases acted
    refine ⟨?_, holds, rfl⟩
    simpa [User.closing] using life

theorem oldSwap_life {tmp : Int} {op : Op} (begun : 0 < g.oldBegun)
    (normal : nibble tmp = versionStatusNormal) (life : Life g (held + n) (g.closeRuns + k))
    (acted : step op g ⟨.oldSwap tmp, held⟩ = some (g', u')) :
    Life g' (u'.held + n) (g'.closeRuns + (u'.closing + k)) ∧ u'.Ok g' ∧
      g'.oldBegun = g.oldBegun := by
  have word := life.word
  by_cases hit : g.status = tmp
  · subst hit
    simp only [nibble, versionStatusNormal] at normal
    have opened : g.status ≠ 15 := by omega
    have calls : g.closeRuns + k = 0 := life.runs.trans (if_neg opened)
    simp only [step, if_true] at acted
    cases acted
    by_cases unused : g.status = 0
    · have value : oldValue g.status = 15 := if_pos unused
      have closes : g.status = versionStatusNormal := unused
      rw [value, if_pos closes]
      refine ⟨⟨?_, life.room, ?_, fun _ => begun, ?_, life.late⟩, trivial, rfl⟩
      all_goals dsimp only
      · omega
      · simp only [User.closing, if_true]
        omega
      · omega
    · have value : oldValue g.status = g.status + 1 := by
        refine (if_neg unused).trans ?_
        simp only [nibble, versionStatusOld]
        omega
      have stays : g.status ≠ versionStatusNormal := unused
      rw [value, if_neg stays]
      refine ⟨⟨?_, life.room, ?_, fun _ => begun, ?_, life.late⟩, trivial, rfl⟩
      all_goals dsimp only
      · omega
      · rw [if_neg (by omega)]
        simp only [User.closing, reduceCtorEq, if_false]
        omega
      · omega
  · simp only [step, if_neg hit] at acted
    cases acted
    refine ⟨?_, begun, rfl⟩
    simpa [User.closing] using life

/-- What a step does to the version, with the references and the runs of its thread. -/
theorem step_life {op : Op} {u : User} (ok : u.Ok g)
    (life : Life g (u.held + n) (g.closeRuns + (u.closing + k))) (room : u'.held + n < 2 ^ 27)
    (acted : step op g u = some (g', u')) :
    Life g' (u'.held + n) (g'.closeRuns + (u'.closing + k)) ∧ u'.Ok g' ∧ g.oldBegun ≤ g'.oldBegun := by
  obtain ⟨pc, held⟩ := u
  have quiet : pc ≠ .versionCloseFunc → Life g (held + n) (g.closeRuns + k) := by
    intro other
    simpa [User.closing, other] using life
  cases pc with
  | idle =>
    cases op with
    | inc =>
      cases acted
      exact ⟨by simpa [User.closing] using life, ⟨trivial, .inl rfl⟩, Nat.le_refl _⟩
    | dec =>
      simp only [step] at acted
      split at acted
      · contradiction
      next some =>
        cases acted
        exact ⟨by simpa [User.closing] using life, Nat.pos_of_ne_zero some, Nat.le_refl _⟩
    | old =>
      cases acted
      refine ⟨?_, Nat.succ_pos _, Nat.le_succ _⟩
      have same : Life { g with oldBegun := g.oldBegun + 1 } (held + n) (g.closeRuns + k) :=
        (quiet (by simp)).same rfl (Nat.le_succ _) rfl rfl
      simpa [User.closing] using same
  | incVersionUserNum pc =>
    have acted : step .inc g ⟨.incVersionUserNum pc, held⟩ = some (g', u') := acted
    obtain ⟨life', ok', begun⟩ := inc_life ok.2 ok.1 (quiet (by simp)) room acted
    exact ⟨life', ok', Nat.le_of_eq begun.symm⟩
  | versionUserNumInc =>
    cases acted
    have same : Life { g with userNum := i32 (g.userNum + 1) } (held + n) (g.closeRuns + k) :=
      (quiet (by simp)).same rfl (Nat.le_refl _) rfl rfl
    exact ⟨by simpa [User.closing] using same, trivial, Nat.le_refl _⟩
  | versionUserNumDec =>
    cases acted
    have same : Life { g with userNum := i32 (g.userNum - 1) } (held + n) (g.closeRuns + k) :=
      (quiet (by simp)).same rfl (Nat.le_refl _) rfl rfl
    exact ⟨by simpa [User.closing] using same, ok, Nat.le_refl _⟩
  | decVersionUserNum =>
    cases acted
    exact ⟨by simpa [User.closing] using life, ok, Nat.le_refl _⟩
  | decSwap tmp =>
    obtain ⟨life', ok', begun⟩ := decSwap_life ok (quiet (by simp)) acted
    exact ⟨life', ok', Nat.le_of_eq begun.symm⟩
  | setVersionStatusOld =>
    have begun : 0 < g.oldBegun := ok
    by_cases normal : nibble g.status = versionStatusNormal
    · simp only [step, if_pos normal] at acted
      cases acted
      exact ⟨by simpa [User.closing] using life, ⟨begun, normal⟩, Nat.le_refl _⟩
    · simp only [step, if_neg normal] at acted
      cases acted
      refine ⟨?_, trivial, Nat.le_refl _⟩
      have before := quiet (by simp)
      have marked : g.status ≠ 16 * (held + n : Nat) := by
        simp only [nibble, versionStatusNormal] at normal
        omega
      have after : Life { g with oldDone := g.oldDone + 1 } (held + n) (g.closeRuns + k) :=
        { before with done := fun _ => marked }
      simpa [User.closing] using after
  | oldSwap tmp =>
    obtain ⟨life', ok', begun⟩ := oldSwap_life ok.1 ok.2 (quiet (by simp)) acted
    exact ⟨life', ok', Nat.le_of_eq begun.symm⟩
  | versionCloseFunc =>
    cases acted
    refine ⟨?_, trivial, Nat.le_refl _⟩
    refine { life with runs := ?_ }
    have runs := life.runs
    simp only [User.closing, if_true, reduceCtorEq, if_false] at runs ⊢
    omega

end

/-- The calls and the version of a run. -/
structure Invariant (c : Config Version User) : Prop where
  calls : ∀ u ∈ c.calls, u.Ok c.shared
  life : Life c.shared (users c) (c.shared.closeRuns + c.total User.closing)

theorem initial_invariant : Invariant initial :=
  ⟨fun _ member => absurd member List.not_mem_nil,
    ⟨.inl rfl, Nat.two_pow_pos 27, rfl, fun old => absurd rfl old,
      fun done => absurd done (Nat.lt_irrefl 0), rfl⟩⟩

theorem start_invariant {g g' : Version} {u : User} {ls : List User} {e : Unit}
    (inv : Invariant ⟨g, ls⟩) (started : protocol.start e g = some (g', u)) :
    Invariant ⟨g', ls ++ [u]⟩ := by
  cases started
  refine ⟨forall_start inv.calls trivial fun _ => id, ?_⟩
  have life := inv.life
  simp only [users, total_start _ g g] at life ⊢
  exact life

theorem step_invariant {op : Op} {g g' : Version} {u u' : User} {pre post : List User}
    (inv : Invariant ⟨g, pre ++ u :: post⟩) (acted : step op g u = some (g', u'))
    (room : users ⟨g', pre ++ u' :: post⟩ < 2 ^ 27) : Invariant ⟨g', pre ++ u' :: post⟩ := by
  have life := inv.life
  simp only [users, total_split] at life room
  obtain ⟨life', ok, begun⟩ := step_life (inv.calls u (by simp)) life room acted
  refine ⟨forall_split inv.calls ok fun _ _ ok => ok.mono begun, ?_⟩
  simp only [users, total_split]
  exact life'

/-- The runs in which the count of users does not overflow. -/
abbrev Runs := protocol.ReachesWithin (fun c => users c < 2 ^ 27)

theorem runs_invariant {c : Config Version User} (run : Runs initial c) : Invariant c :=
  Program.ReachesWithin.invariant initial_invariant
    (fun inv started _ => start_invariant inv started)
    (fun inv acted room => step_invariant inv acted room) run

theorem version_life_cycle {c : Config Version User} (run : Runs initial c) :
    c.shared.closeRuns ≤ 1 ∧
      (∀ u ∈ c.calls, u.pc = .versionCloseFunc →
        0 < c.shared.oldBegun ∧ users c = 0 ∧ c.shared.closeRuns = 0) ∧
      (0 < c.shared.closeRuns → 0 < c.shared.oldBegun ∧ users c = 0) ∧
      (0 < c.shared.oldDone → users c = 0 → (∀ u ∈ c.calls, u.pc = .idle) →
        c.shared.closeRuns = 1) ∧
      (c.shared.status = versionStatusClosed → users c = 0) ∧ c.shared.late = 0 := by
  obtain ⟨_, life⟩ := runs_invariant run
  have word := life.word
  have runs := life.runs
  have unused : c.shared.status = 15 → 0 < c.shared.oldBegun ∧ users c = 0 := by
    intro closed
    exact ⟨life.marked (by omega), by omega⟩
  have closed : 0 < c.shared.closeRuns + c.total User.closing → c.shared.status = 15 := by
    intro some
    by_contra opened
    rw [if_neg opened] at runs
    omega
  have most : c.shared.closeRuns + c.total User.closing ≤ 1 := by
    rw [runs]
    split <;> omega
  refine ⟨by omega, ?_, fun some => unused (closed (by omega)), ?_, fun same => (unused same).2,
    life.late⟩
  · intro u member closing
    have one : u.closing = 1 := if_pos closing
    have part : u.closing ≤ c.total User.closing := weight_le_total member
    obtain ⟨begun, none⟩ := unused (closed (by omega))
    exact ⟨begun, none, by omega⟩
  · intro done none idle
    have marked := life.done done
    have zero : c.total User.closing = 0 := by
      by_contra some
      obtain ⟨u, member, positive⟩ := exists_of_total_pos (Nat.pos_of_ne_zero some)
      simp [User.closing, idle u member] at positive
    rw [if_pos (by omega)] at runs
    omega

/-- A user joins after the version has been marked old; its leave closes the version. -/
theorem version_life_cycle_joined : ∃ c : Config Version User, Runs initial c ∧
    c.shared = ⟨15, 0, 1, 1, 1, 0⟩ ∧ c.shared.closeRuns ≤ 1 ∧ c.shared.late = 0 := by
  have executed : protocol.exec (fun c => users c < 2 ^ 27)
      (List.flatten [[.inl (), .inl ()], Program.turns 0 4 .inc, Program.turns 1 3 .old,
        Program.turns 1 4 .inc, Program.turns 0 4 .dec, Program.turns 1 5 .dec]) initial =
      some ⟨⟨15, 0, 1, 1, 1, 0⟩, [⟨.idle, 0⟩, ⟨.idle, 0⟩]⟩ := by with_unfolding_all rfl
  have run : Runs initial _ := Program.exec_reaches executed
  have holds := version_life_cycle run
  exact ⟨_, run, rfl, holds.1, holds.2.2.2.2.2⟩

/-- One more user of a thread that is alone with the version. -/
theorem join_reaches {c : Config Version User} {status userNum : Int} {n : Nat}
    (opened : ¬ Closed status)
    (run : protocol.Reaches c ⟨⟨status, userNum, 0, 0, 0, 0⟩, [⟨.idle, n⟩]⟩) :
    protocol.Reaches c ⟨⟨i32 (status + useingRefUnit), i32 (userNum + 1), 0, 0, 0, 0⟩,
      [⟨.idle, n + 1⟩]⟩ := by
  have called : protocol.step .inc ⟨status, userNum, 0, 0, 0, 0⟩ ⟨.idle, n⟩ =
      some (⟨status, userNum, 0, 0, 0, 0⟩, ⟨.incVersionUserNum .inc, n⟩) := rfl
  have read : protocol.step .inc ⟨status, userNum, 0, 0, 0, 0⟩ ⟨.incVersionUserNum .inc, n⟩ =
      some (⟨status, userNum, 0, 0, 0, 0⟩, ⟨.incVersionUserNum (.incSwap status), n⟩) := by
    simp [protocol, step, refStep, opened]
  have swapped : protocol.step .inc ⟨status, userNum, 0, 0, 0, 0⟩
      ⟨.incVersionUserNum (.incSwap status), n⟩ =
      some (⟨i32 (status + useingRefUnit), userNum, 0, 0, 0, 0⟩, ⟨.versionUserNumInc, n + 1⟩) := by
    simp [protocol, step, refStep, opened]
  have counted : protocol.step .inc ⟨i32 (status + useingRefUnit), userNum, 0, 0, 0, 0⟩
      ⟨.versionUserNumInc, n + 1⟩ =
      some (⟨i32 (status + useingRefUnit), i32 (userNum + 1), 0, 0, 0, 0⟩, ⟨.idle, n + 1⟩) := rfl
  exact (((run.tail (.alone called)).tail (.alone read)).tail (.alone swapped)).tail (.alone counted)

theorem joins_reach (n : Nat) :
    protocol.Reaches initial ⟨⟨i32 (16 * n), i32 n, 0, 0, 0, 0⟩, [⟨.idle, n⟩]⟩ := by
  induction n with
  | zero =>
    have zero : i32 (16 * (0 : Nat)) = 0 := i32_eq (by decide) (by decide)
    have none : i32 (0 : Nat) = 0 := i32_eq (by decide) (by decide)
    rw [zero, none]
    have started : protocol.start () ⟨0, 0, 0, 0, 0, 0⟩ = some (⟨0, 0, 0, 0, 0, 0⟩, ⟨.idle, 0⟩) := rfl
    exact .single (.start started)
  | succ n ih =>
    have opened : ¬ Closed (i32 (16 * n)) := by
      simp only [Closed, nibble, statusClosed, i32]
      omega
    have sum : i32 (i32 (16 * n) + useingRefUnit) = i32 (16 * (n + 1 : Nat)) := by
      simp only [i32, useingRefUnit]
      omega
    have count : i32 (i32 n + 1) = i32 (n + 1 : Nat) := by
      simp only [i32]
      omega
    have joined := join_reaches opened ih
    rw [sum, count] at joined
    exact joined

/-- With 2^28 users the word is that of an unused version, which set_version_status_old closes. -/
theorem version_closed_under_overflow :
    ∃ c, protocol.Reaches initial c ∧ c.shared.closeRuns = 1 ∧ users c = 2 ^ 28 := by
  have unused : i32 (16 * (2 ^ 28 : Nat)) = 0 := by simp [i32]
  have run := joins_reach (2 ^ 28)
  rw [unused] at run
  generalize i32 (2 ^ 28 : Nat) = userNum at run
  generalize 2 ^ 28 = n at run ⊢
  have called : protocol.step .old ⟨0, userNum, 0, 0, 0, 0⟩ ⟨.idle, n⟩ =
      some (⟨0, userNum, 0, 1, 0, 0⟩, ⟨.setVersionStatusOld, n⟩) := rfl
  have read : protocol.step .old ⟨0, userNum, 0, 1, 0, 0⟩ ⟨.setVersionStatusOld, n⟩ =
      some (⟨0, userNum, 0, 1, 0, 0⟩, ⟨.oldSwap 0, n⟩) := rfl
  have closed : protocol.step .old ⟨0, userNum, 0, 1, 0, 0⟩ ⟨.oldSwap 0, n⟩ =
      some (⟨15, userNum, 0, 1, 1, 0⟩, ⟨.versionCloseFunc, n⟩) := rfl
  have ran : protocol.step .old ⟨15, userNum, 0, 1, 1, 0⟩ ⟨.versionCloseFunc, n⟩ =
      some (⟨15, userNum, 1, 1, 1, 0⟩, ⟨.idle, n⟩) := rfl
  refine ⟨_, (((run.tail (.alone called)).tail (.alone read)).tail (.alone closed)).tail
    (.alone ran), rfl, ?_⟩
  simp [users, Config.total]

end MoonInWater.Sync.VersionStatus
