import MoonInWater.Socket.Pool

/-! What the listen task still does with a socket after the module has given its reference back. -/
namespace MoonInWater.Socket
open Jobs Threads
variable {S : Type}

/-- The listen task is at an event of the socket, or has one still to come in its batch. -/
def Job.hasEvent (s : S) : Job S → Prop
  | .batch events => s ∈ events.map Prod.fst
  | .event _ t _ later => t = s ∨ s ∈ later.map Prod.fst
  | _ => False

/-- A job of a call that uses the status word of the socket between useing_ref_inc and
useing_ref_dec. -/
def Job.inUse (s : S) : Job S → Prop
  | .place _ t _ | .epollAdd _ t _ | .addFailed _ t _ | .numInc t | .useingRefDec t | .transfer t
  | .join t => t = s
  | .event pc t _ _ => t = s ∧
      (pc = .accept ∨ pc = .listenDec ∨ pc = .getSockOpt ∨ pc = .connectDel ∨ pc = .connectDec)
  | _ => False

/-- A job of _socket_close. -/
def Job.closes (s : S) : Job S → Prop
  | .socketClose t | .numDec t | .closeFd t | .pipeClose t => t = s
  | _ => False

section
variable [DecidableEq S]
variable {g : SocketPool S} {M : Multiset (Job S)}

theorem mem_touches (s : S) (events : List (S × Events)) :
    .touch ∈ touches s events ↔ s ∈ events.map Prod.fst := by
  rw [touches, List.mem_replicate, ← List.count_pos_iff, Nat.pos_iff_ne_zero]
  exact and_iff_left rfl

theorem hasEvent_marks (s : S) (job : Job S) : job.hasEvent s ↔ .touch ∈ job.marks s := by
  unfold Job.hasEvent
  cases job with
  | event pc t mask later =>
    by_cases same : t = s <;> simp only [Job.marks, marksOn, List.mem_append, mem_touches] <;>
      simp [same]
  | batch events => exact (mem_touches s events).symm
  | drain dels => simp [Job.marks]
  | _ => simp [Job.marks, marksOn]

theorem inUse_marks (s : S) (job : Job S) : job.inUse s ↔
    .hold ∈ job.marks s ∨ .add ∈ job.marks s ∨ .sockOpt ∈ job.marks s ∨ .del ∈ job.marks s := by
  unfold Job.inUse
  cases job with
  | event pc t mask later =>
    cases pc <;> by_cases same : t = s <;> simp [Job.marks, marksOn, touches, ListenPc.marks, same]
  | batch events | drain dels => simp [Job.marks, touches]
  | place k t fd | epollAdd k t fd | addFailed k t fd | numInc t | useingRefDec t | transfer t
  | join t => by_cases same : t = s <;> simp [Job.marks, marksOn, same]
  | _ => simp [Job.marks, marksOn]

theorem closes_marks (s : S) (job : Job S) : job.closes s ↔
    .close ∈ job.marks s ∨ .shut ∈ job.marks s ∨ .leave ∈ job.marks s := by
  unfold Job.closes
  cases job with
  | event pc t mask later =>
    cases pc <;> by_cases same : t = s <;> simp [Job.marks, marksOn, touches, ListenPc.marks, same]
  | batch events | drain dels => simp [Job.marks, touches]
  | socketClose t | numDec t | closeFd t | pipeClose t =>
    by_cases same : t = s <;> simp [Job.marks, marksOn, same]
  | _ => simp [Job.marks, marksOn]

theorem drains_marks (s : S) (job : Job S) :
    (∃ dels, job = .drain dels ∧ s ∈ dels) ↔ .drain ∈ job.marks s := by
  cases job with
  | event pc t mask later =>
    cases pc <;> by_cases same : t = s <;> simp [Job.marks, marksOn, touches, ListenPc.marks, same]
  | batch events => simp [Job.marks, touches]
  | drain dels =>
    simp only [Job.marks, Job.drain.injEq, exists_eq_left', List.mem_replicate, and_true]
    exact List.count_pos_iff.symm.trans Nat.pos_iff_ne_zero
  | _ => simp [Job.marks, marksOn]

/-- No call is under way with the socket, nor is one still to close it or to drain it. -/
def Done (M : Multiset (Job S)) (s : S) : Prop :=
  ∀ job ∈ M, ¬ job.inUse s ∧ ¬ job.closes s ∧ ¬ ∃ dels, job = .drain dels ∧ s ∈ dels

theorem absent {k : Mark} {s : S} :
    (marksOf M s).count k = 0 ↔ ∀ job ∈ M, k ∉ job.marks s := by
  rw [← Nat.le_zero, ← Nat.not_lt, ← exists_mark, not_exists]
  exact forall_congr' fun job => not_and

theorem done_iff (s : S) : Done M s ↔
    ((view g M s).hold = 0 ∧ (view g M s).add = 0 ∧ (view g M s).sockOpt = 0 ∧
      (view g M s).del = 0) ∧
    ((view g M s).close = 0 ∧ (view g M s).shut = 0 ∧ (view g M s).leave = 0) ∧
      (view g M s).drain = 0 := by
  have counts : ∀ k : Mark, (marksOf M s).count k = 0 ↔ ∀ job ∈ M, k ∉ job.marks s :=
    fun _ => absent
  change Done M s ↔ ((marksOf M s).count .hold = 0 ∧ (marksOf M s).count .add = 0 ∧
      (marksOf M s).count .sockOpt = 0 ∧ (marksOf M s).count .del = 0) ∧
    ((marksOf M s).count .close = 0 ∧ (marksOf M s).count .shut = 0 ∧
      (marksOf M s).count .leave = 0) ∧ (marksOf M s).count .drain = 0
  simp only [Done, inUse_marks, closes_marks, drains_marks, counts, not_or, forall_and]

/-- Over any run the reference of the module on a socket is given back once at most, when the socket
is closed and nobody is under way with it; the listen task comes to it later only if its connect has
completed. No closed socket is forgotten. -/
theorem reference_given_back {c : Config (SocketPool S) (Call (Entry S) (Job S))}
    (run : pool.Reaches ⟨.initial, []⟩ c) (s : S) :
    ((c.shared.priv s).drops ≠ 0 → (c.shared.priv s).drops = 1 ∧ (c.shared.priv s).closes = 1 ∧
      (c.shared.priv s).closed = true ∧ Done (left c) s ∧ s ∉ c.shared.pDels ∧
      ∀ job ∈ left c, job.hasEvent s → (c.shared.priv s).completed = true) ∧
    ((c.shared.priv s).closed = true → Done (left c) s →
      (c.shared.priv s).drops + c.shared.pDels.count s = 1) := by
  obtain ⟨made, users, closes, drops, regs, set_le, set, add_le, add, joined, entered, completed,
    touch, connect, single, del, late⟩ := (reaches_good run).socket s
  rw [view_p] at *
  rw [done_iff (g := c.shared)]
  have dels : (view c.shared (left c) s).dels = c.shared.pDels.count s := rfl
  constructor
  · intro given
    have once : (c.shared.priv s).closes = 1 := by grind -linarith
    have idle : (c.shared.priv s).closed = true ∧ (c.shared.priv s).users = 0 := by grind -linarith
    refine ⟨by omega, once, idle.1, ?_, ?_, ?_⟩
    · rw [if_pos idle, once] at closes
      obtain ⟨_, unused⟩ := idle
      omega
    · apply List.count_eq_zero.mp
      omega
    · intro job member event
      by_contra other
      have touched : 0 < (view c.shared (left c) s).touch :=
        exists_mark.mp ⟨job, member, (hasEvent_marks s job).mp event⟩
      exact given (late touched (Bool.eq_false_of_not_eq_true other)).1
  · rintro closed ⟨⟨hold, add, sockOpt, del⟩, ⟨close, shut, leave⟩, drain⟩
    have unused : (c.shared.priv s).users = 0 := by omega
    rw [if_pos ⟨closed, unused⟩] at closes
    omega

end

/-- A connect for which there is no descriptor. -/
def noDescriptor : List (Entry Nat ⊕ Nat × Answer Nat) :=
  .inl (.newSocket 7) :: Program.turns 0 5 ⟨false, false, 3, 8, []⟩

theorem reference_noDescriptor :
    ∃ c : Config (SocketPool Nat) (Call (Entry Nat) (Job Nat)), pool.Reaches ⟨.initial, []⟩ c ∧
      (c.shared.priv 7).drops = 1 ∧ (c.shared.priv 7).closes = 1 ∧ Done (left c) 7 := by
  have ends : (pool.exec (fun _ => True) noDescriptor ⟨.initial, []⟩).map
      (fun c => (c.shared.priv 7).drops) = some 1 := rfl
  obtain ⟨c, executed, once⟩ := Option.map_eq_some_iff.mp ends
  have run := (Program.exec_reaches executed).reaches
  obtain ⟨_, closes, _, done, _⟩ := (reference_given_back run 7).1 (by omega)
  exact ⟨c, run, once, closes, done⟩

/-- A connect that completes with a hang up beside it: the listen task comes to the socket once more
after its reference is given back. -/
def completedHangUp : List (Entry Nat ⊕ Nat × Answer Nat) :=
  let ready : Answer Nat := ⟨true, false, 3, 8, [(7, ⟨false, true, true⟩)]⟩
  List.flatten [[.inl (.newSocket 7)], Program.turns 0 3 ready, [.inr (0, ⟨false, true, 3, 8, []⟩)],
    Program.turns 0 5 ready, [.inl .getSocketpoolInstance], Program.turns 1 15 ready]

example : (pool.exec (fun _ => True) completedHangUp ⟨.initial, []⟩).map (fun c =>
    ((c.shared.priv 7).drops, c.calls.map fun l => l.jobs)) =
      some (1, [[], [.event .hangUp 7 ⟨false, true, true⟩ []]]) := rfl

end MoonInWater.Socket
