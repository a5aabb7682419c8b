import MoonInWater.ThreadPool.Accounting

/-! Where a task is: in the ring, with one thread, or run. A task that was put can always
still be run, since idle_max threads stay. -/
namespace MoonInWater.ThreadPool
open Threads
variable {T : Type} [DecidableEq T] {lim : Limits} {g g' : Pool T} {l l' : Call T}
  {s s' : Config (Pool T) (Call T)} {t : Ticket T}

/-- The thread has read the task and has not called its task_func yet. -/
def Call.taken (t : Ticket T) : Call T → Nat
  | .worker _ (.run t') => if t' = t then 1 else 0
  | _ => 0

/-- How often the thread has run the task. -/
def Call.runs (t : Ticket T) : Call T → Nat
  | .worker ran _ => ran.count t
  | _ => 0

/-- The call of put_task that the task was given to, once it has returned 0. -/
def Call.accepted (t : Ticket T) : Call T → Nat
  | .put (some t') (.done 0) => if t' = t then 1 else 0
  | _ => 0

def Call.puts (t : Ticket T) : Call T → Nat
  | .put (some t') _ => if t' = t then 1 else 0
  | _ => 0

attribute [simp] Call.taken Call.runs Call.accepted Call.puts

/-- The places of a task: its copies in the ring, with the threads and among what has run. -/
def places (t : Ticket T) (s : Config (Pool T) (Call T)) : Nat :=
  s.shared.ring.queue.count t + s.total (Call.taken t) + s.total (Call.runs t)

structure Placed (t : Ticket T) (s : Config (Pool T) (Call T)) : Prop where
  places : places t s = s.total (Call.accepted t)
  once : s.total (Call.puts t) ≤ 1
  later : s.shared.puts ≤ t.call → s.total (Call.puts t) = 0

/-- What one turn of a call does to the places of a task. -/
def Moves (t : Ticket T) (g : Pool T) (l : Call T) (g' : Pool T) (l' : Call T) : Prop :=
  g'.ring.queue.count t + l'.taken t + l'.runs t + l.accepted t =
    g.ring.queue.count t + l.taken t + l.runs t + l'.accepted t ∧
  l'.puts t = l.puts t ∧ g'.puts = g.puts

theorem processFunc_moves {timedOut : Bool} {ran ran' : List (Ticket T)} {pc pc' : WorkerPc T}
    (acted : processFunc lim timedOut g ran pc = some (g', ran', pc')) :
    Moves t g (.worker ran pc) g' (.worker ran' pc') := by
  cases pc with
  | read =>
    obtain ⟨⟨ring, result⟩, read, continued⟩ := Option.bind_eq_some_iff.mp acted
    unfold ringRead at read
    split at read
    · cases read
      cases continued
      exact ⟨rfl, rfl, rfl⟩
    · split at read
      next t' rest queue =>
        cases read
        cases continued
        refine ⟨?_, rfl, rfl⟩
        simp only [queue, Call.taken, Call.runs, Call.accepted, List.count_cons, beq_iff_eq]
        omega
      next queue =>
        split at read
        · cases read
          cases continued
          exact ⟨rfl, rfl, rfl⟩
        · contradiction
  | run t' =>
    cases acted
    refine ⟨?_, rfl, rfl⟩
    simp only [Call.taken, Call.runs, Call.accepted, List.count_append, List.count_singleton,
      beq_iff_eq]
    omega
  | idle =>
    simp only [processFunc] at acted
    split at acted
    all_goals
      cases acted
      exact ⟨rfl, rfl, rfl⟩
  | left => contradiction
  | _ =>
    cases acted
    exact ⟨rfl, rfl, rfl⟩

theorem putTaskStep_moves {created : Bool} {t' : Ticket T} {pc pc' : PutPc}
    (acted : putTaskStep lim created g t' pc = some (g', pc')) :
    Moves t g (.put (some t') pc) g' (.put (some t') pc') := by
  cases pc with
  | done ret => contradiction
  | count =>
    simp only [putTaskStep, countTask] at acted
    split at acted
    all_goals
      cases acted
      exact ⟨rfl, rfl, rfl⟩
  | create =>
    simp only [putTaskStep] at acted
    split at acted
    all_goals
      cases acted
      exact ⟨rfl, rfl, rfl⟩
  | write =>
    simp only [putTaskStep] at acted
    split at acted
    next ring wrote =>
      cases acted
      refine ⟨?_, rfl, rfl⟩
      rw [ringWrite_open wrote]
      simp only [Call.taken, Call.runs, Call.accepted, List.count_append, List.count_singleton,
        beq_iff_eq]
      omega
    next =>
      cases acted
      exact ⟨rfl, rfl, rfl⟩
  | _ =>
    cases acted
    exact ⟨rfl, rfl, rfl⟩

theorem getInstance_moves {a : Answer lim} {pc pc' : InstancePc}
    (fresh : g.status ≠ 1 → g = { initial with puts := g.puts })
    (acted : getPthreadpoolInstance a g pc = some (g', pc')) :
    Moves t g (.getInstance pc) g' (.getInstance pc') := by
  cases pc with
  | done made => contradiction
  | look =>
    cases acted
    exact ⟨rfl, rfl, rfl⟩
  | lock =>
    simp only [getPthreadpoolInstance] at acted
    split at acted
    next zero =>
      split at acted
      · rw [processPoolStart_all _ _ a.all, fresh (by omega)] at acted
        cases acted
        rw [fresh (by omega)]
        exact ⟨rfl, rfl, rfl⟩
      · cases acted
        exact ⟨rfl, rfl, rfl⟩
    · cases acted
      exact ⟨rfl, rfl, rfl⟩

theorem step_moves {a : Answer lim} {ls : List (Call T)} (inv : Invariant lim ⟨g, ls⟩)
    (acted : step a g l = some (g', l')) : Moves t g l g' l' := by
  cases l with
  | getInstance pc =>
    obtain ⟨⟨g₁, pc'⟩, moved, same⟩ := Option.map_eq_some_iff.mp acted
    cases same
    exact getInstance_moves inv.fresh moved
  | worker ran pc =>
    obtain ⟨⟨g₁, ran', pc'⟩, moved, same⟩ := Option.map_eq_some_iff.mp acted
    cases same
    exact processFunc_moves moved
  | put ticket pc =>
    cases ticket with
    | none => contradiction
    | some t' =>
      obtain ⟨⟨g₁, pc'⟩, moved, same⟩ := Option.map_eq_some_iff.mp acted
      cases same
      exact putTaskStep_moves moved

theorem step_placed {a : Answer lim} {pre post : List (Call T)}
    (inv : Invariant lim ⟨g, pre ++ l :: post⟩) (placed : Placed t ⟨g, pre ++ l :: post⟩)
    (acted : step a g l = some (g', l')) : Placed t ⟨g', pre ++ l' :: post⟩ := by
  obtain ⟨sum, puts, calls⟩ : Moves t g l g' l' := step_moves inv acted
  obtain ⟨places, once, later⟩ := placed
  simp only [ThreadPool.places, total_split] at places once later
  refine ⟨?_, ?_, ?_⟩
  · simp only [ThreadPool.places, total_split]
    omega
  · simp only [total_split]
    omega
  · simp only [total_split]
    omega

theorem start_placed {e : Event T} {ls : List (Call T)} (placed : Placed t ⟨g, ls⟩)
    (started : start e g = some (g', l)) : Placed t ⟨g', ls ++ [l]⟩ := by
  obtain ⟨places, once, later⟩ := placed
  have kept : g'.ring = g.ring ∧ l.taken t = 0 ∧ l.runs t = 0 ∧ l.accepted t = 0 ∧
      (l.puts t = 0 ∧ g'.puts = g.puts ∨
        g'.puts = g.puts + 1 ∧ l.puts t ≤ 1 ∧ (0 < l.puts t → t.call = g.puts)) := by
    cases e with
    | getInstance =>
      cases started
      exact ⟨rfl, rfl, rfl, rfl, .inl ⟨rfl, rfl⟩⟩
    | thread =>
      simp only [start] at started
      split at started
      · contradiction
      · cases started
        exact ⟨rfl, rfl, rfl, rfl, .inl ⟨rfl, rfl⟩⟩
    | put pool task =>
      obtain ⟨ticket, pc, rfl, rfl, named, unfinished⟩ := putTask_cases started
      refine ⟨rfl, rfl, rfl, ?_, .inr ⟨rfl, ?_, ?_⟩⟩
      · cases ticket with
        | none => rfl
        | some t' => rcases unfinished with rfl | ⟨_, rfl⟩ <;> rfl
      · cases ticket with
        | none => exact Nat.zero_le 1
        | some t' =>
          simp only [Call.puts]
          split <;> omega
      · intro positive
        cases ticket with
        | none => cases positive
        | some t' =>
          simp only [Call.puts] at positive
          split at positive
          next same => exact same ▸ named t' rfl
          next => cases positive
  obtain ⟨ring, taken, runs, accepted, puts⟩ := kept
  simp only [ThreadPool.places] at places once later
  refine ⟨?_, ?_, ?_⟩
  · simp only [ThreadPool.places, total_start _ g' g, taken, runs, accepted, ring]
    exact places
  · simp only [total_start _ g' g]
    omega
  · simp only [total_start _ g' g]
    omega

theorem initial_placed : Placed t (⟨initial, []⟩ : Config (Pool T) (Call T)) :=
  ⟨rfl, Nat.zero_le 1, fun _ => rfl⟩

theorem runs_placed (run : (pool T lim).Reaches ⟨initial, []⟩ s) : Placed t s := by
  have both : Invariant lim s ∧ Placed t s :=
    Program.Reaches.invariant (I := fun s => Invariant lim s ∧ Placed t s)
      ⟨initial_invariant, initial_placed⟩
      (fun both started => ⟨start_invariant both.1 started, start_placed both.2 started⟩)
      (fun both acted => ⟨step_invariant both.1 acted, step_placed both.1 both.2 acted⟩) run
  exact both.2

/-- A call of put_task that has returned is the only one with its ticket. -/
theorem Placed.returned {ret : Int} (placed : Placed t s)
    (member : .put (some t) (.done ret) ∈ s.calls) :
    ThreadPool.places t s = if ret = 0 then 1 else 0 := by
  obtain ⟨pre, post, calls⟩ := List.append_of_mem member
  obtain ⟨g, ls⟩ := s
  subst calls
  obtain ⟨places, once, _⟩ := placed
  have other : others (Call.accepted t) pre post ≤ others (Call.puts t) pre post := by
    refine others_mono pre post fun l => ?_
    unfold Call.accepted
    split
    · exact Nat.le_refl _
    · exact Nat.zero_le _
  have mine : (Call.put (some t) (.done ret)).puts t = 1 := if_pos rfl
  rw [total_split] at places once
  rw [places]
  split
  next zero =>
    subst zero
    have accepted : (Call.put (some t) (.done 0)).accepted t = 1 := if_pos rfl
    omega
  next other' =>
    have accepted : (Call.put (some t) (.done ret)).accepted t = 0 := by
      unfold Call.accepted
      split
      next same =>
        cases same
        exact absurd rfl other'
      next => rfl
    omega

/-- Answers under which nothing runs out of time. -/
def Answer.ready (lim : Limits) : Answer lim := ⟨false, false, false, fun _ => true, fun _ _ => rfl⟩

section
omit [DecidableEq T]

/-- One turn of a thread in its surroundings. -/
theorem turn {ran ran' : List (Ticket T)} {pc pc' : WorkerPc T} (pre post : List (Call T))
    (acted : processFunc lim false g ran pc = some (g', ran', pc')) :
    (pool T lim).Reaches ⟨g, pre ++ .worker ran pc :: post⟩
      ⟨g', pre ++ .worker ran' pc' :: post⟩ := by
  have acts : (pool T lim).step (.ready lim) g (.worker ran pc) = some (g', .worker ran' pc') := by
    simp only [pool, step, Answer.ready, acted, Option.map_some]
  exact .single (.step acts)

theorem Reaches.invariant (inv : Invariant lim s) (run : (pool T lim).Reaches s s') :
    Invariant lim s' :=
  Program.Reaches.invariant inv start_invariant step_invariant run

/-- Some thread of a started pool comes to read: where none can, each of those that are
left gives up its place, and idle_max places are never given up. -/
theorem reader (inv : Invariant lim s) (started : s.shared.status = 1) :
    ∃ s', (pool T lim).Reaches s s' ∧ s'.shared.ring.queue = s.shared.ring.queue ∧
      ∃ pre post ran, s'.calls = pre ++ .worker ran .read :: post := by
  induction live : s.total Call.live using Nat.strong_induction_on generalizing s with
  | _ n ih =>
    subst live
    obtain ⟨g, ls⟩ := s
    have books : Accounts lim g (sums ⟨g, ls⟩) := inv.books started
    by_cases born : g.born = 0
    · have living : 0 < Config.total Call.live ⟨g, ls⟩ := by
        have positive := lim.positive
        have threads : g.processNum = g.born + Config.total Call.live ⟨g, ls⟩ +
          Config.total Call.creating ⟨g, ls⟩ := books.threads
        have least : lim.idleMax + Config.total Call.creating ⟨g, ls⟩ ≤ g.processNum := books.least
        omega
      obtain ⟨l, member, alive⟩ := exists_of_total_pos living
      obtain ⟨pre, post, rfl⟩ := List.append_of_mem member
      have sound := inv.sound l member
      cases l with
      | put ticket pc => cases alive
      | getInstance pc => cases alive
      | worker ran pc =>
        cases pc with
        | closeRing => cases sound
        | brokenRefDec => cases sound
        | brokenLeave => cases sound
        | refDec => cases alive
        | left => cases alive
        | read => exact ⟨_, .refl, rfl, pre, post, ran, rfl⟩
        | finish => exact ⟨_, turn pre post rfl, rfl, pre, post, ran, rfl⟩
        | run t =>
          have acted : processFunc lim false g ran (.run t) = some (g, ran ++ [t], .finish) := rfl
          have ran' := turn pre post acted
          exact ⟨_, ran'.trans (turn pre post rfl), rfl, pre, post, _, rfl⟩
        | idle =>
          by_cases quits : g.taskNum + lim.idleMax < g.processNum
          · have acted : processFunc lim false g ran .idle =
                some ({ g with processNum := g.processNum - 1 }, ran, .refDec) := if_pos quits
            have left := turn pre post acted
            have fewer : Config.total Call.live
                ⟨{ g with processNum := g.processNum - 1 }, pre ++ .worker ran .refDec :: post⟩ <
                Config.total Call.live ⟨g, pre ++ .worker ran .idle :: post⟩ := by
              simp [Call.live]
            obtain ⟨s', run, queue, reading⟩ :=
              ih _ fewer (Reaches.invariant inv left) started rfl
            exact ⟨s', left.trans run, queue, reading⟩
          · exact ⟨_, turn pre post (if_neg quits), rfl, pre, post, ran, rfl⟩
    · have runs : (pool T lim).start .thread g =
          some ({ g with born := g.born - 1 }, .worker [] .read) := if_neg born
      exact ⟨_, .single (.start runs), rfl, ls, [], [], rfl⟩

end

/-- A task in the ring is run once the threads have come to it. -/
theorem drained (inv : Invariant lim s) (started : s.shared.status = 1)
    (queued : t ∈ s.shared.ring.queue) :
    ∃ s', (pool T lim).Reaches s s' ∧ 0 < s'.total (Call.runs t) := by
  induction queue : s.shared.ring.queue generalizing s with
  | nil =>
    rw [queue] at queued
    contradiction
  | cons next rest ih =>
    obtain ⟨⟨g, ls⟩, run, same, pre, post, ran, calls⟩ := reader inv started
    have inv' := Reaches.invariant inv run
    dsimp only at calls
    subst calls
    have first : g.ring.queue = next :: rest := same.trans queue
    have acted : processFunc lim false g ran .read =
        some ({ g with ring := { g.ring with queue := rest } }, ran, .run next) := by
      simp only [processFunc, ringRead, first]
      rfl
    have takes := turn pre post acted
    have runs := takes.trans (turn pre post rfl)
    by_cases mine : next = t
    · refine ⟨_, run.trans runs, ?_⟩
      simp [mine, Call.runs]
    · have left : t ∈ rest := by
        rw [queue] at queued
        exact (List.mem_cons.mp queued).resolve_left fun same => mine same.symm
      have inv'' := Reaches.invariant inv' runs
      have started' := inv''.uses (.worker (ran ++ [next]) .finish) (by simp) rfl
      obtain ⟨s', later, ran'⟩ := ih inv'' started' left rfl
      exact ⟨s', (run.trans runs).trans later, ran'⟩

theorem places_run (inv : Invariant lim s) (somewhere : 0 < places t s) :
    ∃ s', (pool T lim).Reaches s s' ∧ 0 < s'.total (Call.runs t) := by
  obtain ⟨g, ls⟩ := s
  by_cases ran : 0 < Config.total (Call.runs t) ⟨g, ls⟩
  · exact ⟨_, .refl, ran⟩
  by_cases taken : 0 < Config.total (Call.taken t) ⟨g, ls⟩
  · obtain ⟨l, member, has⟩ := exists_of_total_pos taken
    obtain ⟨pre, post, rfl⟩ := List.append_of_mem member
    unfold Call.taken at has
    split at has
    next ran' t' =>
      split at has
      next same =>
        refine ⟨_, turn pre post rfl, ?_⟩
        simp [same, Call.runs]
      next => cases has
    next => cases has
  · have queued : 0 < g.ring.queue.count t := by
      simp only [places] at somewhere
      omega
    refine drained inv ?_ (List.count_pos_iff.mp queued)
    by_contra other
    have fresh : g = { initial with puts := g.puts } := inv.fresh other
    rw [fresh] at queued
    cases queued

/-- The counts of the pool, and that a task is run by one thread, once, exactly if put_task
has returned 0 for it. -/
theorem pool_accounting (run : (pool T lim).Reaches ⟨initial, []⟩ s) :
    s.shared.taskNum =
      s.shared.ring.queue.length + s.total Call.running + s.total Call.beingPut ∧
    s.shared.processNum = s.shared.born + s.total Call.live + s.total Call.creating ∧
    (s.shared.status = 1 →
      lim.idleMax ≤ s.shared.processNum ∧ s.shared.processNum ≤ lim.processMax) ∧
    (∀ t, .put (some t) (.done 0) ∈ s.calls → places t s = 1 ∧
      ∃ s', (pool T lim).Reaches s s' ∧ s'.total (Call.runs t) = 1) ∧
    ∀ t, .put (some t) (.done (-1)) ∈ s.calls → places t s = 0 := by
  have inv : Invariant lim s := runs_invariant run
  refine ⟨inv.counts.1, inv.counts.2, ?_, ?_, ?_⟩
  · intro one
    have books := inv.books one
    have least := books.least
    exact ⟨by omega, books.most⟩
  · intro t returned
    have placed : places t s = 1 := (runs_placed run).returned returned
    obtain ⟨s', later, ran⟩ := places_run inv (Nat.lt_of_lt_of_eq Nat.zero_lt_one placed.symm)
    have returned' := Program.Reaches.keeps (fun _ _ => rfl) returned later
    have placed' : places t s' = 1 := (runs_placed (run.trans later)).returned returned'
    refine ⟨placed, s', later, ?_⟩
    simp only [places] at placed'
    omega
  · intro t returned
    exact (runs_placed run).returned returned

/-- Two tasks are put into the pool of pthreadpool_hub, and one of its threads runs one. -/
def twoTasks : List (Event Nat ⊕ Nat × Answer pthreadpoolHub) :=
  let made : Answer pthreadpoolHub := ⟨false, true, true, fun _ => true, fun _ _ => rfl⟩
  List.flatten [[.inl .getInstance], Program.turns 0 2 made,
    [.inl .thread, .inl (.put true (some 5))], Program.turns 2 2 made,
    [.inl (.put true (some 6))], Program.turns 3 2 made, Program.turns 1 2 made]

theorem pool_accounting_twoTasks : ∃ s : Config (Pool Nat) (Call Nat),
    (pool Nat pthreadpoolHub).Reaches ⟨initial, []⟩ s ∧
    places ⟨0, 5⟩ s = 1 ∧ s.shared.taskNum = 1 + s.total Call.running + s.total Call.beingPut := by
  have left : ((pool Nat pthreadpoolHub).exec (fun _ => True) twoTasks ⟨initial, []⟩).map
      (fun s => (s.shared.ring.queue.length, s.calls[2]?)) =
        some (1, some (.put (some ⟨0, 5⟩) (.done 0))) := rfl
  obtain ⟨s, executed, both⟩ := Option.map_eq_some_iff.mp left
  have put := List.mem_of_getElem? (congrArg Prod.snd both)
  have length : s.shared.ring.queue.length = 1 := congrArg Prod.fst both
  have run := (Program.exec_reaches executed).reaches
  have counts := pool_accounting run
  exact ⟨s, run, (counts.2.2.2.1 _ put).1, by rw [counts.1, length]; rfl⟩

end MoonInWater.ThreadPool
