import MoonInWater.Socket.Pool

/-! What cur_socket_num counts: the descriptors that are in epoll, and one more for each connect
that has completed. -/
namespace MoonInWater.Socket
open CInt Jobs Threads
variable {S : Type}

/-- A descriptor that is in epoll and not yet counted. -/
def Job.toInc : Job S → Bool
  | .numInc _ => true
  | _ => false

/-- One that is out of epoll and still counted. -/
def Job.toDec : Job S → Bool
  | .numDec _ => true
  | _ => false

def toInc (M : Multiset (Job S)) : Nat := M.countP fun job => job.toInc = true

def toDec (M : Multiset (Job S)) : Nat := M.countP fun job => job.toDec = true

/-- What cur_socket_num is to show. -/
def counted (g : SocketPool S) (M : Multiset (Job S)) : Int :=
  g.epoll.length + g.connects + toDec M - toInc M

variable {g g' : SocketPool S} {M : Multiset (Job S)} {job : Job S} {jobs : List (Job S)}

@[simp] theorem toInc_cons : toInc (job ::ₘ M) = toInc M + if job.toInc = true then 1 else 0 :=
  Multiset.countP_cons _ _ _

@[simp] theorem toDec_cons : toDec (job ::ₘ M) = toDec M + if job.toDec = true then 1 else 0 :=
  Multiset.countP_cons _ _ _

theorem i32_add_left (x d : Int) : i32 (i32 x + d) = i32 (x + d) := by
  simp only [i32]
  omega

theorem none_counts (plain : jobs.any Job.counts = false) :
    toInc ((jobs : Multiset (Job S)) + M) = toInc M ∧
      toDec ((jobs : Multiset (Job S)) + M) = toDec M := by
  have none : ∀ job ∈ jobs, job.toInc = false ∧ job.toDec = false := by
    intro job member
    have uncounted : job.counts = false := by simpa using List.any_eq_false.mp plain job member
    cases job <;> first | exact ⟨rfl, rfl⟩ | contradiction
  constructor
  · rw [toInc, Multiset.countP_add, Multiset.coe_countP, List.countP_eq_zero.mpr, Nat.zero_add,
      toInc]
    intro job member
    simp [(none job member).1]
  · rw [toDec, Multiset.countP_add, Multiset.coe_countP, List.countP_eq_zero.mpr, Nat.zero_add,
      toDec]
    intro job member
    simp [(none job member).2]

section
variable [DecidableEq S]

/-- EPOLL_CTL_DEL of a registered descriptor takes out one. -/
theorem Good.del_length (good : Good g M) {s : S} (once : registered g s = 1)
    (held : (view g M s).holds = some (g.priv s).socketFd) :
    (g.epollDel (g.priv s).socketFd).epoll.length + 1 = g.epoll.length := by
  have own : g.epoll.countP (fun e => e.1 = (g.priv s).socketFd) = 1 := by
    rw [← once, registered, List.count_eq_countP, List.countP_map]
    apply List.countP_congr
    intro e listed
    have also := good.listed_holds listed
    constructor
    · intro same
      rw [of_decide_eq_true same] at also
      simpa using good.custody.single also held
    · intro same
      have same : e.2 = s := by simpa using same
      rw [← same]
      simpa using (good.listed e listed).symm
  have split := List.length_eq_countP_add_countP
    (fun e : Nat × S => e.1 = (g.priv s).socketFd) (l := g.epoll)
  rw [own] at split
  rw [split, SocketPool.epollDel, Nat.add_comm]
  simp only [← List.countP_eq_length_filter]
  congr 2
  simp

theorem Good.num (good : Good g (job ::ₘ M)) (step : Num g g' job jobs)
    (shows : g.curSocketNum = i32 (counted g (job ::ₘ M))) :
    g'.curSocketNum = i32 (counted g' (jobs + M)) := by
  cases step with
  | same epoll connects num own later =>
    have plain : job.toInc = false ∧ job.toDec = false := by
      cases job <;> first | exact ⟨rfl, rfl⟩ | contradiction
    obtain ⟨incs, decs⟩ := none_counts (M := M) later
    rw [num, shows, counted, counted, epoll, connects, incs, decs]
    simp [plain]
  | add epoll connects num =>
    rw [num, shows, counted, counted, epoll, connects]
    simp only [Multiset.coe_singleton, Multiset.singleton_add, toInc_cons, toDec_cons, Job.toInc,
      Job.toDec, List.length_cons, if_true, if_false, Bool.false_eq_true]
    congr 1
    omega
  | inc epoll connects num =>
    rw [num, shows, i32_add_left, counted, counted, epoll, connects]
    simp only [Multiset.coe_singleton, Multiset.singleton_add, toInc_cons, toDec_cons, Job.toInc,
      Job.toDec, if_true, if_false, Bool.false_eq_true]
    congr 1
    omega
  | dec epoll connects num =>
    rw [num, shows, sub_eq_add_neg, i32_add_left, counted, counted, epoll, connects]
    simp only [Multiset.coe_singleton, Multiset.singleton_add, toInc_cons, toDec_cons, Job.toInc,
      Job.toDec, if_true, if_false, Bool.false_eq_true]
    congr 1
    omega
  | @del s joined epoll connects num =>
    obtain ⟨once, held⟩ := good.closing joined
    have length := good.del_length once held
    rw [num, shows, counted, counted, epoll, connects]
    simp only [Multiset.coe_singleton, Multiset.singleton_add, toInc_cons, toDec_cons, Job.toInc,
      Job.toDec, if_true, if_false, Bool.false_eq_true]
    congr 1
    omega
  | @completed s mask events fd epoll connects num =>
    obtain ⟨once, held⟩ := good.completing
    have length := good.del_length once held
    have plain : ([.setSocketNonblock s fd, .event .connectDec s mask events] : List (Job S)).any
        Job.counts = false := rfl
    obtain ⟨incs, decs⟩ := none_counts (M := M) plain
    rw [num, shows, counted, counted, epoll, connects, incs, decs]
    simp only [toInc_cons, toDec_cons, Job.toInc, Job.toDec, if_false, Bool.false_eq_true]
    congr 1
    omega
  | @close fd epoll connects num =>
    obtain ⟨kept, _⟩ := good.close_carried (List.mem_singleton_self fd)
    rw [num, shows, counted, counted, epoll, kept, connects, Multiset.coe_nil, zero_add]
    simp [Job.toInc, Job.toDec]
  | @closeFd s epoll connects num =>
    have due : 0 < (view g (.closeFd s ::ₘ M) s).shut := by
      rw [view_cons]
      simp [viewWith, tally, Job.marks, marksOn]
    obtain ⟨kept, _⟩ := good.close_socket due
    rw [num, shows, counted, counted, epoll, kept, connects]
    simp [Job.toInc, Job.toDec]

/-- cur_socket_num over any run: when no call is between epoll_ctl and its counting it is the number
of the descriptors in epoll, and of the connects that have completed. -/
theorem curSocketNum_counts {c : Config (SocketPool S) (Call (Entry S) (Job S))}
    (run : pool.Reaches ⟨.initial, []⟩ c) :
    c.shared.curSocketNum = i32 (counted c.shared (left c)) := by
  have both : Good c.shared (left c) ∧ c.shared.curSocketNum = i32 (counted c.shared (left c)) := by
    apply reaches_left (I := fun g M => Good g M ∧ g.curSocketNum = i32 (counted g M)) _ _ _ run
    · exact ⟨Good.initial, by simp [counted, SocketPool.initial, left, toInc, toDec, i32]⟩
    · rintro g M e ⟨good, shows⟩
      refine ⟨good.enter e, ?_⟩
      have plain : (enter e).any Job.counts = false := by cases e <;> rfl
      obtain ⟨incs, decs⟩ := none_counts (M := M) plain
      rw [shows, counted, counted, incs, decs]
    · rintro a job g g' jobs M ⟨good, shows⟩ acted
      exact ⟨good.act acted, good.num (act_frame acted).num shows⟩
  exact both.2

end

/-- A connect that the listen task completes. -/
def slowConnect : List (Entry Nat ⊕ Nat × Answer Nat) :=
  let ready : Answer Nat := ⟨true, false, 3, 8, [(7, ⟨false, true, false⟩)]⟩
  List.flatten [[.inl (.newSocket 7)], Program.turns 0 3 ready, [.inr (0, ⟨false, true, 3, 8, []⟩)],
    Program.turns 0 5 ready, [.inl .getSocketpoolInstance], Program.turns 1 7 ready]

theorem slowConnect_runs : ∃ c : Config (SocketPool Nat) (Call (Entry Nat) (Job Nat)),
    pool.Reaches ⟨.initial, []⟩ c ∧ c.shared.epoll = [] ∧ c.shared.connects = 1 ∧
      c.shared.isOpen 3 = true := by
  have ends : (pool.exec (fun _ => True) slowConnect ⟨.initial, []⟩).map
      (fun c => (c.shared.epoll, c.shared.connects, c.shared.isOpen 3)) = some ([], 1, true) := rfl
  obtain ⟨c, executed, same⟩ := Option.map_eq_some_iff.mp ends
  simp only [Prod.mk.injEq] at same
  obtain ⟨epoll, connects, opened⟩ := same
  exact ⟨c, (Program.exec_reaches executed).reaches, epoll, connects, opened⟩

theorem curSocketNum_slowConnect : ∃ c : Config (SocketPool Nat) (Call (Entry Nat) (Job Nat)),
    pool.Reaches ⟨.initial, []⟩ c ∧ c.shared.epoll = [] ∧ c.shared.connects = 1 ∧
      c.shared.curSocketNum = i32 (counted c.shared (left c)) := by
  obtain ⟨c, run, epoll, connects, _⟩ := slowConnect_runs
  exact ⟨c, run, epoll, connects, curSocketNum_counts run⟩

end MoonInWater.Socket
