import MoonInWater.Socket.ListenStep

/-! The invariant of the pool over whole runs. -/
namespace MoonInWater.Socket
open CInt Jobs Resource
variable {S : Type} [DecidableEq S]
variable {g g' : SocketPool S} {M : Multiset (Job S)} {job : Job S} {jobs : List (Job S)}

/-- A job that is about to count a descriptor that has been put into epoll or taken out. -/
def Job.counts : Job S → Bool
  | .numInc _ | .numDec _ => true
  | _ => false

/-- What a step does to epoll and to cur_socket_num. -/
inductive Num (g g' : SocketPool S) : Job S → List (Job S) → Prop where
  | same {job : Job S} {jobs : List (Job S)} (epoll : g'.epoll = g.epoll)
      (connects : g'.connects = g.connects)
      (num : g'.curSocketNum = g.curSocketNum) (own : job.counts = false)
      (later : jobs.any Job.counts = false) : Num g g' job jobs
  | add (epoll : g'.epoll = ((g'.priv s).socketFd, s) :: g.epoll)
      (connects : g'.connects = g.connects) (num : g'.curSocketNum = g.curSocketNum) :
      Num g g' (.epollAdd adder s fd) [.numInc s]
  | inc (epoll : g'.epoll = g.epoll) (connects : g'.connects = g.connects)
      (num : g'.curSocketNum = i32 (g.curSocketNum + 1)) :
      Num g g' (.numInc s) [.useingRefDec s]
  | dec (epoll : g'.epoll = g.epoll) (connects : g'.connects = g.connects)
      (num : g'.curSocketNum = i32 (g.curSocketNum - 1)) : Num g g' (.numDec s) [.closeFd s]
  | del (joined : (g.priv s).fdCat.joined = true)
      (epoll : g'.epoll = (g.epollDel (g.priv s).socketFd).epoll)
      (connects : g'.connects = g.connects) (num : g'.curSocketNum = g.curSocketNum) :
      Num g g' (.socketClose s) [.numDec s]
  | completed (epoll : g'.epoll = (g.epollDel (g.priv s).socketFd).epoll)
      (connects : g'.connects = g.connects + 1) (num : g'.curSocketNum = g.curSocketNum) :
      Num g g' (.event .connectDel s mask events)
        [.setSocketNonblock s fd, .event .connectDec s mask events]
  | close (epoll : g'.epoll = (g.closeFd fd).epoll) (connects : g'.connects = g.connects)
      (num : g'.curSocketNum = g.curSocketNum) : Num g g' (.close fd) []
  | closeFd (epoll : g'.epoll = (g.closeFd (g.priv s).socketFd).epoll)
      (connects : g'.connects = g.connects) (num : g'.curSocketNum = g.curSocketNum) :
      Num g g' (.closeFd s) [.pipeClose s]

omit [DecidableEq S] in
theorem Num.listed (step : Num g g' job jobs) {e : Nat × S} (member : e ∈ g'.epoll) :
    e ∈ g.epoll ∨ e = ((g'.priv e.2).socketFd, e.2) := by
  cases step with
  | same epoll | inc epoll | dec epoll => exact .inl (epoll ▸ member)
  | add epoll =>
    rw [epoll] at member
    rcases List.mem_cons.mp member with rfl | old
    · exact .inr rfl
    · exact .inl old
  | del _ epoll | completed epoll | close epoll | closeFd epoll =>
    rw [epoll] at member
    exact .inl (List.mem_filter.mp member).1

/-- What a step leaves of the parts of the pool that no effect speaks of. -/
structure Frame (g g' : SocketPool S) (job : Job S) (jobs : List (Job S)) : Prop where
  listener : jobs.countP (fun job => job.listener = true) + g.listening.toNat =
    job.listener.toNat + g'.listening.toNat
  num : Num g g' job jobs
  adding : ∀ adder s fd, .epollAdd adder s fd ∈ jobs ∨ .addFailed adder s fd ∈ jobs →
    job = .epollAdd adder s fd ∧ g' = g ∨ (g'.priv s).socketFd = fd
  misused : g'.misused = g.misused ∨ (∃ fd, job = .close fd ∧ g' = g.closeFd fd) ∨
    ∃ s, job = .closeFd s ∧ g' = g.closeFd (g.priv s).socketFd

/-- A job that is not about to add a descriptor to epoll. -/
def Job.plain : Job S → Bool
  | .epollAdd .. | .addFailed .. => false
  | _ => true

omit [DecidableEq S] in
theorem plain_adding {P : Adder → S → Nat → Prop} (plain : jobs.all Job.plain = true) :
    ∀ adder s fd, .epollAdd adder s fd ∈ jobs ∨ .addFailed adder s fd ∈ jobs → P adder s fd := by
  rintro adder s fd (member | member)
  · exact absurd (List.all_eq_true.mp plain _ member) (by simp [Job.plain])
  · exact absurd (List.all_eq_true.mp plain _ member) (by simp [Job.plain])

omit [DecidableEq S] in
/-- A step that leaves epoll and the descriptors alone. -/
theorem Frame.of_same
    (listener : jobs.countP (fun job => job.listener = true) + g.listening.toNat =
      job.listener.toNat + g'.listening.toNat)
    (epoll : g'.epoll = g.epoll) (connects : g'.connects = g.connects)
    (num : g'.curSocketNum = g.curSocketNum) (own : job.counts = false)
    (later : jobs.any Job.counts = false) (plain : jobs.all Job.plain = true)
    (misused : g'.misused = g.misused) : Frame g g' job jobs :=
  ⟨listener, .same epoll connects num own later, plain_adding plain, .inl misused⟩

omit [DecidableEq S] in
theorem closing_listener (due : Bool) (s : S) :
    (closing due s).countP (fun job => job.listener = true) = 0 := by
  cases due <;> rfl

omit [DecidableEq S] in
theorem closing_plain (due : Bool) (s : S) : (closing due s).all Job.plain = true ∧
    (closing due s).any Job.counts = false := by
  cases due <;> exact ⟨rfl, rfl⟩

theorem callAct_frame {a : Answer S} (acted : callAct a job g = some (g', jobs)) :
    Frame g g' job jobs := by
  cases job with
  | epollAdd adder s fd =>
    dsimp only [callAct] at acted
    split at acted <;> cases acted
    · refine ⟨rfl, .add ?_ rfl rfl, plain_adding rfl, .inl rfl⟩
      simp [SocketPool.epollAdd, SocketPool.set]
    · refine ⟨rfl, .same rfl rfl rfl rfl rfl, ?_, .inl rfl⟩
      intro adder' t fd' member
      simp at member
      grind -linarith
  | useingRefDec s =>
    cases acted
    refine .of_same ?_ rfl rfl rfl rfl (closing_plain _ _).2 (closing_plain _ _).1 rfl
    rw [closing_listener]
    rfl
  | setStatusClosed s =>
    dsimp only [callAct] at acted
    split at acted
    · cases acted
      refine .of_same ?_ rfl rfl rfl rfl (closing_plain _ _).2 (closing_plain _ _).1 rfl
      rw [closing_listener]
      rfl
    · contradiction
  | close fd =>
    cases acted
    exact ⟨rfl, .close rfl rfl rfl, plain_adding rfl, .inr (.inl ⟨fd, rfl, rfl⟩)⟩
  | closeFd s =>
    cases acted
    exact ⟨rfl, .closeFd rfl rfl rfl, plain_adding rfl, .inr (.inr ⟨s, rfl, rfl⟩)⟩
  | socketClose s =>
    dsimp only [callAct] at acted
    split at acted <;> cases acted
    · exact .of_same rfl rfl rfl rfl rfl rfl rfl rfl
    · exact .of_same rfl rfl rfl rfl rfl rfl rfl rfl
    all_goals
      rename_i cat
      exact ⟨rfl, .del (congrArg FdCat.joined cat) rfl rfl rfl, plain_adding rfl, .inl rfl⟩
  | setUp kind s fd =>
    dsimp only [callAct] at acted
    split at acted
    · cases kind <;> cases acted <;> exact .of_same rfl rfl rfl rfl rfl rfl rfl rfl
    · cases acted
      exact .of_same rfl rfl rfl rfl rfl rfl rfl rfl
  | addFailed adder s fd =>
    cases adder <;> cases acted <;> exact .of_same rfl rfl rfl rfl rfl rfl rfl rfl
  | place kind s fd =>
    cases acted
    refine ⟨rfl, .same rfl rfl rfl rfl rfl, ?_, .inl rfl⟩
    intro adder t fd' member
    simp at member
    obtain ⟨rfl, rfl, rfl⟩ := member
    exact .inr (by simp [SocketPool.set])
  | join s =>
    dsimp only [callAct] at acted
    split at acted <;> cases acted
    · refine ⟨rfl, .same rfl rfl rfl rfl rfl, ?_, .inl rfl⟩
      intro adder t fd' member
      simp at member
      obtain ⟨rfl, rfl, rfl⟩ := member
      exact .inr (by simp [SocketPool.set])
    · exact .of_same rfl rfl rfl rfl rfl rfl rfl rfl
  | numInc s =>
    cases acted
    exact ⟨rfl, .inc rfl rfl rfl, plain_adding rfl, .inl rfl⟩
  | numDec s =>
    cases acted
    exact ⟨rfl, .dec rfl rfl rfl, plain_adding rfl, .inl rfl⟩
  | getSocketpoolInstance | epollWait | batch | event | takeDels | drain => contradiction
  | newSocket | socket | connect | useingInc | pipeClose | setSocketNonblock | getOtherPointRef
  | pipeNew | onReady | socketRw | transfer | socketStart =>
    dsimp only [callAct] at acted
    repeat' split at acted
    all_goals cases acted
    all_goals exact .of_same rfl rfl rfl rfl rfl rfl rfl rfl

omit [DecidableEq S] in
/-- A step of the listen task at an event, with the job by which the task goes on. -/
theorem Frame.of_next {next : Job S} (before : List (Job S)) (listens : job.listener = true)
    (others : before.countP (fun job => job.listener = true) = 0)
    (plain : before.all Job.plain = true ∧ before.any Job.counts = false)
    (listener : next.listener = true) (kept : g'.listening = g.listening)
    (epoll : g'.epoll = g.epoll) (connects : g'.connects = g.connects)
    (num : g'.curSocketNum = g.curSocketNum) (misused : g'.misused = g.misused) :
    Frame g g' job (before ++ [next]) := by
  refine .of_same ?_ epoll connects num ?_ ?_ ?_ misused
  · rw [List.countP_append, others, List.countP_singleton, if_pos (by simpa using listener),
      listens, kept]
    rfl
  · cases job <;> first | rfl | contradiction
  · rw [List.any_append, plain.2]
    cases next <;> first | rfl | contradiction
  · rw [List.all_append, plain.1]
    cases next <;> first | rfl | contradiction

theorem eventAct_frame {a : Answer S} {pc : ListenPc} {s : S} {mask : Events}
    {later : List (S × Events)} (acted : eventAct a s mask later pc g = some (g', jobs)) :
    Frame g g' (.event pc s mask later) jobs := by
  have goto : ∀ {g' : SocketPool S} {job : Job S}, job.listener = true →
      g'.listening = g.listening → g'.epoll = g.epoll → g'.connects = g.connects →
      g'.curSocketNum = g.curSocketNum → g'.misused = g.misused →
      Frame g g' (.event pc s mask later) [job] := fun listener =>
    .of_next [] rfl rfl ⟨rfl, rfl⟩ listener
  have next := fun write => (toNext_next write s mask later).listener
  cases pc with
  | canRead | canWrite =>
    dsimp only [eventAct] at acted
    split at acted <;> cases acted
    all_goals first
      | exact goto rfl rfl rfl rfl rfl rfl
      | exact goto (next false) rfl rfl rfl rfl rfl
      | exact goto (next true) rfl rfl rfl rfl rfl
  | notify write =>
    cases acted
    split
    · exact goto (next write) rfl rfl rfl rfl rfl
    · exact goto rfl rfl rfl rfl rfl rfl
  | setClosed write =>
    cases acted
    exact .of_next _ rfl (closing_listener _ _) (closing_plain _ _) (next write) rfl rfl rfl rfl rfl
  | listenDec =>
    cases acted
    exact .of_next _ rfl (closing_listener _ _) (closing_plain _ _) (next false) rfl rfl rfl rfl rfl
  | connectDec | hangUp =>
    cases acted
    exact .of_next _ rfl (closing_listener _ _) (closing_plain _ _) rfl rfl rfl rfl rfl rfl
  | listenInc | connectInc | getSockOpt =>
    dsimp only [eventAct] at acted
    split at acted <;> cases acted <;> exact goto rfl rfl rfl rfl rfl rfl
  | accept =>
    dsimp only [eventAct] at acted
    split at acted
    · split at acted
      · contradiction
      · cases acted
        exact .of_next [_] rfl rfl ⟨rfl, rfl⟩ rfl rfl rfl rfl rfl rfl
    · cases acted
      split <;> exact goto rfl rfl rfl rfl rfl rfl
  | connectDel =>
    cases acted
    exact ⟨rfl, .completed rfl rfl rfl, plain_adding rfl, .inl rfl⟩

theorem listenAct_frame {a : Answer S} (acted : listenAct a job g = some (g', jobs)) :
    Frame g g' job jobs := by
  cases job with
  | getSocketpoolInstance =>
    dsimp only [listenAct] at acted
    split at acted
    · cases acted
      exact .of_same rfl rfl rfl rfl rfl rfl rfl rfl
    next unstarted =>
      split at acted <;> cases acted
      · refine .of_same ?_ rfl rfl rfl rfl rfl rfl rfl
        simp [Job.listener, unstarted]
      · exact .of_same rfl rfl rfl rfl rfl rfl rfl rfl
  | epollWait =>
    dsimp only [listenAct] at acted
    repeat' split at acted
    all_goals cases acted
    all_goals exact .of_same rfl rfl rfl rfl rfl rfl rfl rfl
  | batch events =>
    cases events with
    | nil =>
      cases acted
      exact .of_same rfl rfl rfl rfl rfl rfl rfl rfl
    | cons e later =>
      cases acted
      exact .of_next [] rfl rfl ⟨rfl, rfl⟩ (toRead_next e.1 e.2 later).listener rfl rfl rfl rfl rfl
  | event pc s mask later => exact eventAct_frame acted
  | takeDels =>
    cases acted
    exact .of_same rfl rfl rfl rfl rfl rfl rfl rfl
  | drain dels =>
    cases dels <;> cases acted <;> exact .of_same rfl rfl rfl rfl rfl rfl rfl rfl
  | _ => contradiction

theorem act_frame {a : Answer S} (acted : act a job g = some (g', jobs)) :
    Frame g g' job jobs := by
  unfold act at acted
  split at acted
  · exact listenAct_frame acted
  · exact callAct_frame acted

theorem Quiet.socketFd {v v' : View} (step : Quiet v v') : v'.p.socketFd = v.p.socketFd := by
  cases step <;> rfl

theorem QuietRun.socketFd {v v' : View} (run : QuietRun v v') :
    v'.p.socketFd = v.p.socketFd := by
  induction run with
  | refl => rfl
  | tail _ step ih => rw [step.socketFd, ih]

/-- A socket whose descriptor is replaced is neither in epoll nor about to be. -/
theorem Effect.socketFd (effect : Effect g g' (job ::ₘ M) (jobs + M))
    (good : Good g (job ::ₘ M)) (s : S) : (g'.priv s).socketFd = (g.priv s).socketFd ∨
      registered g s = 0 ∧ (view g (job ::ₘ M) s).add = 0 := by
  cases effect with
  | quiet sockets | obtain fd sockets => exact .inl (sockets s).socketFd
  | release fd same =>
    left
    rw [← view_p g' (jobs + M), same, view_p]
  | takes t socket | shuts t socket =>
    left
    by_cases same : s = t
    · subst t
      have here := socket.here
      rw [← view_p g' (jobs + M), ← view_p g (job ::ₘ M)]
      generalize view g (job ::ₘ M) s = v at here
      generalize view g' (jobs + M) s = v' at here
      cases here <;> rfl
    · rw [← view_p g' (jobs + M), socket.elsewhere s same, view_p]
  | places t fd socket =>
    by_cases same : s = t
    · subst t
      right
      have inv := good.socket s
      have here := socket.here
      have regs : (view g (job ::ₘ M) s).regs = registered g s := rfl
      rw [← regs]
      generalize view g (job ::ₘ M) s = v at here inv
      generalize view g' (jobs + M) s = v' at here
      have made := inv.made
      have regs := inv.regs
      have set := inv.set
      have add := inv.add
      cases here with
      | place v kind => constructor <;> grind -linarith [FdCat.joined]
      | make _ fresh => constructor <;> grind -linarith
    · left
      rw [← view_p g' (jobs + M), socket.elsewhere s same, view_p]

theorem add_of_mem {adder : Adder} {s : S} {fd : Nat}
    (member : .epollAdd adder s fd ∈ M ∨ .addFailed adder s fd ∈ M) : 0 < (view g M s).add := by
  have marked : Mark.add ∈ marksOf M s := by
    rcases member with member | member
    · exact Multiset.mem_bind.mpr ⟨_, member, by simp [Job.marks, marksOn]⟩
    · exact Multiset.mem_bind.mpr ⟨_, member, by simp [Job.marks, marksOn]⟩
  exact Multiset.count_pos.mpr marked

theorem Good.act {a : Answer S} (good : Good g (job ::ₘ M))
    (acted : act a job g = some (g', jobs)) : Good g' (jobs + M) := by
  have effect := act_effect good acted
  have frame := act_frame acted
  obtain ⟨socket, custody⟩ := effect.kept good.socket good.custody
  refine ⟨socket, ?_, fun e listed => ?_, ?_, custody, ?_⟩
  · have count := good.listener
    have moved := frame.listener
    rw [Multiset.countP_cons] at count
    rw [Multiset.countP_add, Multiset.coe_countP]
    cases listens : job.listener <;> cases before : g.listening <;> cases after : g'.listening <;>
      simp only [listens, before, after, Bool.toNat_true, Bool.toNat_false, if_true, if_false,
        Bool.false_eq_true] at count moved ⊢ <;> omega
  · rcases frame.num.listed listed with old | new
    · rcases effect.socketFd good e.2 with same | ⟨none, _⟩
      · rw [same, good.listed e old]
      · exact absurd (List.mem_map_of_mem old) (List.count_eq_zero.mp none)
    · rw [new]
  · intro adder s fd member
    have others : .epollAdd adder s fd ∈ M ∨ .addFailed adder s fd ∈ M →
        (g'.priv s).socketFd = fd := by
      intro member
      have pending : .epollAdd adder s fd ∈ job ::ₘ M ∨ .addFailed adder s fd ∈ job ::ₘ M :=
        member.imp Multiset.mem_cons_of_mem Multiset.mem_cons_of_mem
      rcases effect.socketFd good s with same | ⟨_, none⟩
      · rw [same, good.adding pending]
      · exact absurd none (Nat.ne_of_gt (add_of_mem pending))
    rw [Multiset.mem_add, Multiset.mem_add, Multiset.mem_coe, Multiset.mem_coe] at member
    have own : .epollAdd adder s fd ∈ jobs ∨ .addFailed adder s fd ∈ jobs →
        (g'.priv s).socketFd = fd := by
      intro member
      rcases frame.adding adder s fd member with ⟨rfl, rfl⟩ | placed
      · exact good.adding (.inl (Multiset.mem_cons_self _ _))
      · exact placed
    rcases member with (new | old) | (new | old)
    · exact own (.inl new)
    · exact others (.inl old)
    · exact own (.inr new)
    · exact others (.inr old)
  · rcases frame.misused with same | ⟨fd, rfl, rfl⟩ | ⟨s, rfl, rfl⟩
    · rw [same, good.misused]
    · rw [(good.close_carried (List.mem_singleton_self fd)).2, good.misused]
    · rw [(good.close_socket ?_).2, good.misused]
      rw [view_cons]
      simp [viewWith, tally, Job.marks, marksOn]

/-- A job with a mark, from the number of the jobs with it. -/
theorem exists_mark {k : Mark} {s : S} :
    (∃ job ∈ M, k ∈ job.marks s) ↔ 0 < (marksOf M s).count k := by
  rw [Multiset.count_pos, marksOf, Multiset.mem_bind]
  rfl

theorem enter_marks (e : Entry S) : (∀ s, (enter e).flatMap (Job.marks s) = []) ∧
    (enter e).flatMap Job.carries = [] ∧
    (enter e).countP (fun job => job.listener = true) = 0 ∧ (enter e).all Job.plain = true := by
  cases e <;> exact ⟨fun _ => rfl, rfl, rfl, rfl⟩

theorem Good.enter (good : Good g M) (e : Entry S) : Good g (enter e + M) := by
  obtain ⟨marks, carries, listener, plain⟩ := enter_marks e
  have same : ∀ s, view g (Socket.enter e + M) s = view g M s := fun s => by
    rw [view_jobs, marks, view]
  have kept : carried g (Socket.enter e + M) = carried g M := by
    rw [carried_jobs, carries]
    exact zero_add _
  refine ⟨fun s => ?_, ?_, good.listed, fun member => ?_, ?_, good.misused⟩
  · rw [same]
    exact good.socket s
  · rw [Multiset.countP_add, Multiset.coe_countP, listener, Nat.zero_add]
    exact good.listener
  · simp only [Multiset.mem_add, Multiset.mem_coe] at member
    have absent := plain_adding (P := fun _ s fd => (g.priv s).socketFd = fd) plain
    rcases member with (new | old) | (new | old)
    · exact absent _ _ _ (.inl new)
    · exact good.adding (.inl old)
    · exact absent _ _ _ (.inr new)
    · exact good.adding (.inr old)
  · simp only [same, kept]
    exact good.custody

theorem Good.initial : Good (SocketPool.initial : SocketPool S) 0 where
  socket s := by constructor <;> simp [view, viewWith, tally, marksOf, SocketPool.initial,
    SocketPrivate.fresh, registered, FdCat.joined]
  listener := rfl
  listed := by simp [SocketPool.initial]
  adding := by simp
  custody := by
    have none : (fun s : S => (view (SocketPool.initial : SocketPool S) 0 s).holds) =
        fun _ => none := rfl
    rw [none]
    exact .empty
  misused := rfl

/-- The invariant holds in every state that the pool can reach. -/
theorem reaches_good {c : Threads.Config (SocketPool S) (Call (Entry S) (Job S))}
    (run : pool.Reaches ⟨.initial, []⟩ c) : Good c.shared (left c) :=
  reaches_left Good.initial (fun e good => good.enter e) Good.act run

end MoonInWater.Socket
