import MoonInWater.ThreadPool.Model

/-! What the counts of the pool stand for. Each step is weighed once, by the call that
acts; the other calls only bring their sums. -/
namespace MoonInWater.ThreadPool
open Threads
variable {T : Type} {lim : Limits} {g g' : Pool T} {l l' : Call T} {s s' : Config (Pool T) (Call T)}

/-- The thread has taken a task and has not yet lowered task_num for it. -/
def Call.running : Call T → Nat
  | .worker _ (.run _) | .worker _ .finish => 1
  | _ => 0

/-- The call has raised task_num for a task that is not in the ring. -/
def Call.beingPut : Call T → Nat
  | .put _ .count | .put _ (.done _) => 0
  | .put _ _ => 1
  | _ => 0

/-- The thread has not given up its place in process_num. -/
def Call.live : Call T → Nat
  | .worker _ .refDec | .worker _ .left => 0
  | .worker _ _ => 1
  | _ => 0

/-- The call has raised process_num for a thread that is not created. -/
def Call.creating : Call T → Nat
  | .put _ .refInc | .put _ .create | .put _ .uncount => 1
  | _ => 0

/-- The call holds a reference of the ring. -/
def Call.holds : Call T → Nat
  | .worker _ .brokenLeave | .worker _ .left => 0
  | .worker _ _ => 1
  | .put _ .create | .put _ .uncount | .put _ .refDec => 1
  | _ => 0

/-- A thread on the way out after a read error. -/
def Call.broken : Call T → Bool
  | .worker _ .closeRing | .worker _ .brokenRefDec | .worker _ .brokenLeave => true
  | _ => false

/-- The call uses the pool, which must have been started. -/
def Call.uses : Call T → Bool
  | .worker _ _ => true
  | .put _ (.done _) => false
  | .put _ _ => true
  | .getInstance _ => false

attribute [simp] Call.running Call.beingPut Call.live Call.creating Call.holds

/-- The sums over the calls. -/
structure Sums where
  running : Nat
  beingPut : Nat
  live : Nat
  creating : Nat
  holds : Nat

def Sums.add (rest : Sums) (l : Call T) : Sums :=
  ⟨l.running + rest.running, l.beingPut + rest.beingPut, l.live + rest.live,
    l.creating + rest.creating, l.holds + rest.holds⟩

def sums (s : Config (Pool T) (Call T)) : Sums :=
  ⟨s.total Call.running, s.total Call.beingPut, s.total Call.live, s.total Call.creating,
    s.total Call.holds⟩

/-- The books of a pool that has been started. -/
structure Accounts (lim : Limits) (g : Pool T) (w : Sums) : Prop where
  started : g.status = 1
  tasks : g.taskNum = g.ring.queue.length + w.running + w.beingPut
  threads : g.processNum = g.born + w.live + w.creating
  refs : g.ring.refs = 1 + g.born + w.holds
  least : lim.idleMax + w.creating ≤ g.processNum
  most : g.processNum ≤ lim.processMax
  isOpen : g.ring.isDestroy = false

theorem Call.creating_le (l : Call T) : l.creating ≤ l.beingPut := by
  cases l with
  | put ticket pc => cases pc <;> simp [Call.creating, Call.beingPut]
  | _ => exact Nat.zero_le _

theorem ringRead_open {timedOut : Bool} {r r' : Ring T} {result : ReadResult T}
    (isOpen : r.isDestroy = false) (read : ringRead timedOut r = some (r', result)) :
    (result = .zero ∧ r' = r) ∨
      ∃ t rest, result = .task t ∧ r.queue = t :: rest ∧ r' = { r with queue := rest } := by
  unfold ringRead at read
  split at read
  · cases read
    exact .inl ⟨rfl, rfl⟩
  · split at read
    next t rest queue =>
      cases read
      exact .inr ⟨t, rest, rfl, queue, rfl⟩
    next => simp only [isOpen, Bool.false_eq_true, if_false, reduceCtorEq] at read

theorem ringWrite_open {r r' : Ring T} {t : Ticket T} (wrote : ringWrite lim r t = some r') :
    r' = { r with queue := r.queue ++ [t] } := by
  unfold ringWrite at wrote
  split at wrote
  · contradiction
  · split at wrote
    · exact (Option.some.inj wrote).symm
    · contradiction

theorem processFunc_accounts {timedOut : Bool} {rest : Sums} {ran ran' : List (Ticket T)}
    {pc pc' : WorkerPc T} (books : Accounts lim g (rest.add (.worker ran pc)))
    (less : rest.creating ≤ rest.beingPut) (sound : (Call.worker ran pc).broken = false)
    (acted : processFunc lim timedOut g ran pc = some (g', ran', pc')) :
    Accounts lim g' (rest.add (.worker ran' pc')) ∧ (Call.worker ran' pc').broken = false := by
  obtain ⟨started, tasks, threads, refs, least, most, isOpen⟩ := books
  cases pc with
  | closeRing => contradiction
  | brokenRefDec => contradiction
  | brokenLeave => contradiction
  | left => contradiction
  | read =>
    obtain ⟨⟨ring, result⟩, read, continued⟩ := Option.bind_eq_some_iff.mp acted
    rcases ringRead_open isOpen read with ⟨rfl, rfl⟩ | ⟨t, queue, rfl, nonempty, rfl⟩
    · cases continued
      exact ⟨⟨started, tasks, threads, refs, least, most, isOpen⟩, rfl⟩
    · cases continued
      rw [nonempty, List.length_cons] at tasks
      refine ⟨⟨started, ?_, threads, refs, least, most, isOpen⟩, rfl⟩
      simp only [Sums.add, Call.running, Call.beingPut] at tasks ⊢
      omega
  | run t =>
    cases acted
    exact ⟨⟨started, tasks, threads, refs, least, most, isOpen⟩, rfl⟩
  | finish =>
    cases acted
    refine ⟨⟨started, ?_, threads, refs, least, most, isOpen⟩, rfl⟩
    simp only [Sums.add, Call.running, Call.beingPut] at tasks ⊢
    omega
  | idle =>
    simp only [processFunc] at acted
    split at acted
    · cases acted
      refine ⟨⟨started, tasks, ?_, refs, ?_, ?_, isOpen⟩, rfl⟩
      all_goals
        simp only [Sums.add, Call.running, Call.beingPut, Call.live, Call.creating]
          at tasks threads least ⊢
        omega
    · cases acted
      exact ⟨⟨started, tasks, threads, refs, least, most, isOpen⟩, rfl⟩
  | refDec =>
    cases acted
    refine ⟨⟨started, tasks, threads, ?_, least, most, isOpen⟩, rfl⟩
    simp only [Pool.refDec, Sums.add, Call.holds] at refs ⊢
    omega

theorem putTaskStep_accounts {created : Bool} {rest : Sums} {t : Ticket T} {pc pc' : PutPc}
    (books : Accounts lim g (rest.add (.put (some t) pc)))
    (acted : putTaskStep lim created g t pc = some (g', pc')) :
    Accounts lim g' (rest.add (.put (some t) pc')) := by
  obtain ⟨started, tasks, threads, refs, least, most, isOpen⟩ := books
  cases pc with
  | done ret => contradiction
  | count =>
    simp only [putTaskStep, countTask] at acted
    split at acted
    next new =>
      cases acted
      refine ⟨started, ?_, ?_, refs, ?_, ?_, isOpen⟩
      all_goals
        simp only [Sums.add, Call.running, Call.beingPut, Call.live, Call.creating, if_true]
          at tasks threads least ⊢
        omega
    next =>
      cases acted
      refine ⟨started, ?_, threads, refs, least, most, isOpen⟩
      simp only [Sums.add, Call.running, Call.beingPut, Bool.false_eq_true, if_false] at tasks ⊢
      omega
  | refInc =>
    cases acted
    refine ⟨started, tasks, threads, ?_, least, most, isOpen⟩
    simp only [Pool.refInc, Sums.add, Call.holds] at refs ⊢
    omega
  | create =>
    simp only [putTaskStep] at acted
    split at acted
    · cases acted
      refine ⟨started, tasks, ?_, ?_, ?_, most, isOpen⟩
      all_goals
        simp only [Sums.add, Call.live, Call.creating, Call.holds] at threads refs least ⊢
        omega
    · cases acted
      exact ⟨started, tasks, threads, refs, least, most, isOpen⟩
  | uncount =>
    cases acted
    refine ⟨started, tasks, ?_, refs, ?_, ?_, isOpen⟩
    all_goals
      simp only [Sums.add, Call.live, Call.creating] at threads least ⊢
      omega
  | refDec =>
    cases acted
    refine ⟨started, tasks, threads, ?_, least, most, isOpen⟩
    simp only [Pool.refDec, Sums.add, Call.holds] at refs ⊢
    omega
  | write =>
    simp only [putTaskStep] at acted
    split at acted
    next ring wrote =>
      cases acted
      rw [ringWrite_open wrote]
      refine ⟨started, ?_, threads, refs, least, most, isOpen⟩
      simp only [Sums.add, Call.running, Call.beingPut, List.length_append, List.length_singleton]
        at tasks ⊢
      omega
    next =>
      cases acted
      exact ⟨started, tasks, threads, refs, least, most, isOpen⟩
  | unput =>
    cases acted
    refine ⟨started, ?_, threads, refs, least, most, isOpen⟩
    simp only [Sums.add, Call.running, Call.beingPut] at tasks ⊢
    omega

theorem processPoolStart_all (startup : Nat → Bool) (n : Nat) (all : ∀ i < n, startup i = true)
    (g : Pool T) : processPoolStart startup n g =
      { g with
        processNum := g.processNum + n
        born := g.born + n
        ring.refs := g.ring.refs + n } := by
  induction n with
  | zero => simp [processPoolStart]
  | succ n ih =>
    have created : startup n = true := all n (Nat.lt_succ_self n)
    have before := ih fun i less => all i (Nat.lt_succ_of_lt less)
    simp only [processPoolStart, before, created, if_true, Pool.refInc]
    simp only [Int.natCast_add, Int.natCast_one, Int.add_assoc, Nat.add_assoc]

/-- A pool that is not started is as it was made, but for the put_task calls so far. -/
structure Invariant (lim : Limits) (s : Config (Pool T) (Call T)) : Prop where
  fresh : s.shared.status ≠ 1 → s.shared = { initial with puts := s.shared.puts }
  uses : ∀ call ∈ s.calls, call.uses = true → s.shared.status = 1
  books : s.shared.status = 1 → Accounts lim s.shared (sums s)
  sound : ∀ call ∈ s.calls, call.broken = false

theorem sums_split (pre post : List (Call T)) :
    ∃ rest : Sums, rest.creating ≤ rest.beingPut ∧
      ∀ (g : Pool T) (l : Call T), sums ⟨g, pre ++ l :: post⟩ = rest.add l := by
  refine ⟨⟨others Call.running pre post, others Call.beingPut pre post,
    others Call.live pre post, others Call.creating pre post, others Call.holds pre post⟩,
    others_mono pre post Call.creating_le, fun g l => ?_⟩
  simp only [sums, Sums.add, total_split]

theorem Call.idle_of_unused {l : Call T} (unused : l.uses = false) (rest : Sums) :
    rest.add l = rest := by
  cases l with
  | worker ran pc => contradiction
  | getInstance pc => simp [Sums.add, running, beingPut, live, creating, holds]
  | put ticket pc =>
    cases pc with
    | done ret => simp [Sums.add, running, beingPut, live, creating, holds]
    | _ => contradiction

theorem initial_invariant : Invariant lim (⟨initial, []⟩ : Config (Pool T) (Call T)) :=
  ⟨fun _ => rfl, by simp, nofun, by simp⟩

theorem sums_unused {ls : List (Call T)} (unused : ∀ call ∈ ls, call.uses = false) :
    sums ⟨g, ls⟩ = ⟨0, 0, 0, 0, 0⟩ := by
  induction ls with
  | nil => rfl
  | cons l ls ih =>
    have tail := ih fun call member => unused call (List.mem_cons_of_mem l member)
    have head : sums ⟨g, l :: ls⟩ = (sums ⟨g, ls⟩).add l := by
      simp only [sums, Sums.add, Config.total, List.map_cons, List.sum_cons]
    rw [head, tail, Call.idle_of_unused (unused l List.mem_cons_self)]

theorem sums_start (g g' : Pool T) (ls : List (Call T)) (l : Call T) :
    sums ⟨g', ls ++ [l]⟩ = (sums ⟨g, ls⟩).add l := by
  simp only [sums, Sums.add, total_start _ g' g, Nat.add_comm]

theorem Invariant.one {ls : List (Call T)} (inv : Invariant lim ⟨g, ls⟩) (zero : g.status ≠ 0) :
    g.status = 1 := by
  by_contra other
  have fresh := inv.fresh other
  exact zero (congrArg Pool.status fresh)

theorem Invariant.before {ls : List (Call T)} (inv : Invariant lim ⟨g, ls⟩) (zero : g.status = 0) :
    ∀ call ∈ ls, call.uses = false := by
  intro call member
  cases uses : call.uses with
  | false => rfl
  | true =>
    have one : g.status = 1 := inv.uses call member uses
    omega

theorem putTask_cases {pool : Bool} {task : Option T}
    (called : putTask pool task g = some (g', l)) :
    ∃ ticket pc, g' = { g with puts := g.puts + 1 } ∧ l = .put ticket pc ∧
      (∀ t, ticket = some t → t.call = g.puts) ∧
      (pc = .done (-1) ∨ g.status ≠ 0 ∧ pc = .count) := by
  have named : ∀ t : Ticket T, task.map (⟨g.puts, ·⟩) = some t → t.call = g.puts := by
    intro t made
    obtain ⟨_, _, rfl⟩ := Option.map_eq_some_iff.mp made
    rfl
  simp only [putTask] at called
  split at called
  · cases called
    exact ⟨_, _, rfl, rfl, named, .inl rfl⟩
  · split at called
    · contradiction
    · cases called
      exact ⟨_, _, rfl, rfl, named, .inr ⟨‹_›, rfl⟩⟩

theorem start_invariant {e : Event T} {ls : List (Call T)} (inv : Invariant lim ⟨g, ls⟩)
    (started : start e g = some (g', l)) : Invariant lim ⟨g', ls ++ [l]⟩ := by
  cases e with
  | getInstance =>
    cases started
    refine ⟨inv.fresh, ?_, ?_, ?_⟩
    · exact forall_start inv.uses (fun uses => by cases uses) fun _ kept => kept
    · intro one
      rw [sums_start g g, Call.idle_of_unused rfl]
      exact inv.books one
    · exact forall_start inv.sound rfl fun _ kept => kept
  | thread =>
    simp only [start] at started
    split at started
    · contradiction
    next some =>
      cases started
      have one : g.status = 1 := by
        by_contra other
        exact some (congrArg Pool.born (inv.fresh other))
      refine ⟨fun other => absurd one other, ?_, ?_, ?_⟩
      · exact forall_start inv.uses (fun _ => one) fun _ kept => kept
      · intro _
        have books : Accounts lim g (sums ⟨g, ls⟩) := inv.books one
        obtain ⟨_, tasks, threads, refs, least, most, isOpen⟩ := books
        rw [sums_start g]
        refine ⟨one, ?_, ?_, ?_, ?_, most, isOpen⟩
        all_goals
          simp only [Sums.add, Call.running, Call.beingPut, Call.live, Call.creating, Call.holds]
          omega
      · exact forall_start inv.sound rfl fun _ kept => kept
  | put pool task =>
    obtain ⟨ticket, pc, rfl, rfl, _, called⟩ := putTask_cases started
    have fresh : g.status ≠ 1 → ({ g with puts := g.puts + 1 } : Pool T) =
        { initial with puts := g.puts + 1 } := by
      intro other
      have same : g = { initial with puts := g.puts } := inv.fresh other
      rw [same]
    have same : (sums ⟨g, ls⟩).add (.put ticket pc) = sums ⟨g, ls⟩ ∧
        ((Call.put ticket pc).uses = true → g.status = 1) := by
      rcases called with rfl | ⟨zero, rfl⟩
      · exact ⟨Call.idle_of_unused rfl _, fun uses => by cases uses⟩
      · refine ⟨?_, fun _ => inv.one zero⟩
        simp [Sums.add, Call.running, Call.beingPut, Call.live, Call.creating, Call.holds]
    obtain ⟨same, uses⟩ := same
    refine ⟨fresh, forall_start inv.uses uses fun _ kept => kept, ?_,
      forall_start inv.sound rfl fun _ kept => kept⟩
    intro one
    have books : Accounts lim g (sums ⟨g, ls⟩) := inv.books one
    obtain ⟨_, tasks, threads, refs, least, most, isOpen⟩ := books
    rw [sums_start g, same]
    exact ⟨one, tasks, threads, refs, least, most, isOpen⟩

theorem getInstance_invariant {a : Answer lim} {pc pc' : InstancePc} {pre post : List (Call T)}
    (inv : Invariant lim ⟨g, pre ++ .getInstance pc :: post⟩)
    (acted : getPthreadpoolInstance a g pc = some (g', pc')) :
    Invariant lim ⟨g', pre ++ .getInstance pc' :: post⟩ := by
  obtain ⟨rest, _, split⟩ := sums_split pre post
  have idle : ∀ pc, (Call.getInstance pc : Call T).uses = false := fun _ => rfl
  -- a turn that leaves the pool alone
  have same : ∀ pc', Invariant lim ⟨g, pre ++ .getInstance pc' :: post⟩ := by
    intro pc'
    refine ⟨inv.fresh, ?_, ?_, ?_⟩
    · exact forall_split inv.uses (fun uses => by cases uses) fun _ _ kept => kept
    · intro one
      have books := inv.books one
      rw [split, Call.idle_of_unused (idle _)] at books ⊢
      exact books
    · exact forall_split inv.sound rfl fun _ _ kept => kept
  cases pc with
  | done made => contradiction
  | look =>
    cases acted
    exact same _
  | lock =>
    simp only [getPthreadpoolInstance] at acted
    split at acted
    next zero =>
      split at acted
      · have other : g.status ≠ 1 := by omega
        have fresh : g = { initial with puts := g.puts } := inv.fresh other
        have unused := forall_split (inv.before zero) (idle (.done true)) fun _ _ kept => kept
        rw [processPoolStart_all _ _ a.all, fresh] at acted
        cases acted
        refine ⟨fun other => absurd rfl other, fun _ _ _ => rfl, fun _ => ?_,
          forall_split inv.sound rfl fun _ _ kept => kept⟩
        rw [sums_unused unused]
        refine ⟨rfl, rfl, ?_, ?_, ?_, ?_, rfl⟩
        all_goals
          have le := lim.le
          simp only [initial]
          omega
      · cases acted
        exact same _
    · cases acted
      exact same _

theorem step_invariant {a : Answer lim} {pre post : List (Call T)}
    (inv : Invariant lim ⟨g, pre ++ l :: post⟩) (acted : step a g l = some (g', l')) :
    Invariant lim ⟨g', pre ++ l' :: post⟩ := by
  obtain ⟨rest, less, split⟩ := sums_split pre post
  cases l with
  | getInstance pc =>
    obtain ⟨⟨g₁, pc'⟩, moved, same⟩ := Option.map_eq_some_iff.mp acted
    cases same
    exact getInstance_invariant inv moved
  | worker ran pc =>
    obtain ⟨⟨g₁, ran', pc'⟩, moved, same⟩ := Option.map_eq_some_iff.mp acted
    cases same
    have one : g.status = 1 := inv.uses (.worker ran pc) (by simp) rfl
    have books := inv.books one
    rw [split] at books
    obtain ⟨books', sound⟩ :=
      processFunc_accounts books less (inv.sound (.worker ran pc) (by simp)) moved
    refine ⟨fun other => absurd books'.started other, fun _ _ _ => books'.started, fun _ => ?_, ?_⟩
    · rw [split]
      exact books'
    · exact forall_split inv.sound sound fun _ _ kept => kept
  | put ticket pc =>
    cases ticket with
    | none => contradiction
    | some t =>
      obtain ⟨⟨g₁, pc'⟩, moved, same⟩ := Option.map_eq_some_iff.mp acted
      cases same
      have one : g.status = 1 := by
        refine inv.uses (.put (some t) pc) (by simp) ?_
        cases pc with
        | done ret => contradiction
        | _ => rfl
      have books := inv.books one
      rw [split] at books
      have books' := putTaskStep_accounts books moved
      refine ⟨fun other => absurd books'.started other, fun _ _ _ => books'.started, fun _ => ?_,
        forall_split inv.sound rfl fun _ _ kept => kept⟩
      rw [split]
      exact books'

theorem runs_invariant (run : (pool T lim).Reaches ⟨initial, []⟩ s) : Invariant lim s :=
  Program.Reaches.invariant initial_invariant start_invariant step_invariant run

theorem Invariant.counts (inv : Invariant lim s) :
    s.shared.taskNum =
      s.shared.ring.queue.length + s.total Call.running + s.total Call.beingPut ∧
    s.shared.processNum = s.shared.born + s.total Call.live + s.total Call.creating := by
  by_cases one : s.shared.status = 1
  · exact ⟨(inv.books one).tasks, (inv.books one).threads⟩
  · obtain ⟨g, ls⟩ := s
    have fresh : g = { initial with puts := g.puts } := inv.fresh one
    have zero : g.status = 0 := by rw [fresh]; rfl
    have none : sums ⟨g, ls⟩ = ⟨0, 0, 0, 0, 0⟩ := sums_unused (inv.before zero)
    injection none with running beingPut live creating holds
    dsimp only
    rw [running, beingPut, live, creating, fresh]
    exact ⟨rfl, rfl⟩

end MoonInWater.ThreadPool
