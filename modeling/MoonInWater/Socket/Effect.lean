import MoonInWater.Lib.Custody
import MoonInWater.Socket.Life

/-! What holds in every reachable state of the pool, and the effects that a step may have on it. -/
namespace MoonInWater.Socket
open Jobs Resource
variable {S : Type}

/-- The descriptors whose number only the job has. -/
def Job.carries : Job S → List Nat
  | .setUp _ _ fd | .connect _ fd | .useingInc _ _ fd | .place _ _ fd | .close fd
  | .setSocketNonblock _ fd | .getOtherPointRef _ fd | .pipeNew _ fd => [fd]
  | _ => []

def carried (g : SocketPool S) (M : Multiset (Job S)) : Multiset Nat :=
  M.bind (fun job => (job.carries : Multiset Nat)) + g.leaked

theorem carried_cons (g : SocketPool S) (M : Multiset (Job S)) (job : Job S) :
    carried g (job ::ₘ M) = job.carries + carried g M := by
  simp [carried, Multiset.cons_bind, add_assoc]

theorem carried_jobs (g : SocketPool S) (M : Multiset (Job S)) (jobs : List (Job S)) :
    carried g (jobs + M) = (jobs.flatMap Job.carries : List Nat) + carried g M := by
  simp [carried, Multiset.add_bind, Multiset.coe_bind, add_assoc]

section
variable {g g' : SocketPool S} {M : Multiset (Job S)} {job : Job S} {jobs : List (Job S)}

theorem carried_same (leaked : g'.leaked = g.leaked)
    (carries : jobs.flatMap Job.carries = job.carries) :
    carried g' (jobs + M) = carried g (job ::ₘ M) := by
  rw [carried_cons, carried_jobs, carries, carried, carried, leaked]

theorem carried_more {fd : Nat} (leaked : g'.leaked = g.leaked)
    (carries : jobs.flatMap Job.carries = fd :: job.carries) :
    carried g' (jobs + M) = fd ::ₘ carried g (job ::ₘ M) := by
  rw [carried_cons, carried_jobs, carries, carried, carried, leaked, ← Multiset.cons_coe,
    Multiset.cons_add]

theorem carried_fewer {fd : Nat} (leaked : g'.leaked = g.leaked)
    (carries : job.carries = fd :: jobs.flatMap Job.carries) :
    carried g (job ::ₘ M) = fd ::ₘ carried g' (jobs + M) := by
  rw [carried_cons, carried_jobs, carries, carried, carried, leaked, ← Multiset.cons_coe,
    Multiset.cons_add]

/-- The number of a descriptor is forgotten. -/
theorem carried_leak {fd : Nat} (carries : job.carries = fd :: jobs.flatMap Job.carries) :
    carried (g.leak fd) (jobs + M) = carried g (job ::ₘ M) := by
  rw [carried_cons, carried_jobs, carries, carried, carried, SocketPool.leak, ← Multiset.cons_coe,
    ← Multiset.cons_coe]
  simp only [Multiset.add_cons, Multiset.cons_add]

end

/-- A job of the listen task between two steps of its loop. -/
def Job.listener : Job S → Bool
  | .epollWait | .batch _ | .event .. | .takeDels | .drain _ => true
  | _ => false

/-- The marks of the jobs other than one, and those of that one. -/
def tally (p : SocketPrivate) (dels regs : Nat) (N : Multiset Mark) (own : List Mark) : View where
  p := p
  dels := dels
  regs := regs
  set := N.count .set + own.count .set
  hold := N.count .hold + own.count .hold
  add := N.count .add + own.count .add
  sockOpt := N.count .sockOpt + own.count .sockOpt
  del := N.count .del + own.count .del
  connect := N.count .connect + own.count .connect
  close := N.count .close + own.count .close
  shut := N.count .shut + own.count .shut
  leave := N.count .leave + own.count .leave
  drain := N.count .drain + own.count .drain
  touch := N.count .touch + own.count .touch

theorem tally_coe (p : SocketPrivate) (dels regs : Nat) (N : Multiset Mark) (own : List Mark) :
    tally p dels regs (own + N) [] = tally p dels regs N own := by
  simp only [tally, Multiset.count_add, Multiset.coe_count, List.count_nil, Nat.add_zero,
    Nat.add_comm]

abbrev QuietRun := Relation.ReflTransGen Quiet

section
variable [DecidableEq S]

def marksOf (M : Multiset (Job S)) (s : S) : Multiset Mark :=
  M.bind fun job => (job.marks s : Multiset Mark)

def registered (g : SocketPool S) (s : S) : Nat := (g.epoll.map Prod.snd).count s

/-- The socket in the state, with the marks of the other jobs and those of one. -/
def viewWith (g : SocketPool S) (N : Multiset Mark) (s : S) (own : List Mark) : View :=
  tally (g.priv s) (g.pDels.count s) (registered g s) N own

def view (g : SocketPool S) (M : Multiset (Job S)) (s : S) : View := viewWith g (marksOf M s) s []

@[simp] theorem view_p (g : SocketPool S) (M : Multiset (Job S)) (s : S) :
    (view g M s).p = g.priv s := rfl

theorem view_jobs (g : SocketPool S) (M : Multiset (Job S)) (s : S) (jobs : List (Job S)) :
    view g (jobs + M) s = viewWith g (marksOf M s) s (jobs.flatMap (Job.marks s)) := by
  unfold view viewWith
  rw [← tally_coe _ _ _ (marksOf M s)]
  congr 1
  simp only [marksOf, Multiset.add_bind, Multiset.coe_bind]

theorem view_cons (g : SocketPool S) (M : Multiset (Job S)) (s : S) (job : Job S) :
    view g (job ::ₘ M) s = viewWith g (marksOf M s) s (job.marks s) := by
  have one := view_jobs g M s [job]
  rwa [Multiset.coe_singleton, Multiset.singleton_add, List.flatMap_singleton] at one

/-- One socket changes, the others stay as they are. -/
structure At (g g' : SocketPool S) (M M' : Multiset (Job S)) (R : View → View → Prop) (s : S) :
    Prop where
  here : R (view g M s) (view g' M' s)
  elsewhere : ∀ t, t ≠ s → view g' M' t = view g M t

theorem At.quiet {g g' : SocketPool S} {M M' : Multiset (Job S)}
    (step : At g g' M M' QuietRun s) (t : S) : QuietRun (view g M t) (view g' M' t) := by
  by_cases same : t = s
  · exact same ▸ step.here
  · rw [step.elsewhere t same]

structure Good (g : SocketPool S) (M : Multiset (Job S)) : Prop where
  socket : ∀ s, (view g M s).Inv
  listener : M.countP (fun job => job.listener = true) = if g.listening = true then 1 else 0
  listed : ∀ e ∈ g.epoll, (g.priv e.2).socketFd = e.1
  adding : ∀ {adder s fd}, .epollAdd adder s fd ∈ M ∨ .addFailed adder s fd ∈ M →
    (g.priv s).socketFd = fd
  custody : Custody g.isOpen (carried g M) fun s => (view g M s).holds
  misused : g.misused = 0

/-- What a step does to the sockets and to the descriptors. -/
inductive Effect (g g' : SocketPool S) (M M' : Multiset (Job S)) : Prop where
  | quiet (sockets : ∀ s, QuietRun (view g M s) (view g' M' s)) (opened : g'.isOpen = g.isOpen)
      (kept : carried g' M' = carried g M)
  | obtain (fd : Nat) (sockets : ∀ s, QuietRun (view g M s) (view g' M' s))
      (shut : g.isOpen fd = false) (opened : g'.isOpen = Function.update g.isOpen fd true)
      (more : carried g' M' = fd ::ₘ carried g M)
  | places (s : S) (fd : Nat) (socket : At g g' M M' (Places fd) s) (opened : g'.isOpen = g.isOpen)
      (fewer : carried g M = fd ::ₘ carried g' M')
  | takes (s : S) (socket : At g g' M M' GivesUp s) (opened : g'.isOpen = g.isOpen)
      (more : carried g' M' = (g.priv s).socketFd ::ₘ carried g M)
  | release (fd : Nat) (sockets : ∀ s, view g' M' s = view g M s)
      (opened : g'.isOpen = Function.update g.isOpen fd false)
      (fewer : carried g M = fd ::ₘ carried g' M')
  | shuts (s : S) (socket : At g g' M M' GivesUp s)
      (opened : g'.isOpen = Function.update g.isOpen (g.priv s).socketFd false)
      (kept : carried g' M' = carried g M)

variable {g g' : SocketPool S} {M M' : Multiset (Job S)}

theorem Inv.quietRun {v v' : View} (inv : v.Inv) (run : QuietRun v v') :
    v'.Inv ∧ v'.holds = v.holds := by
  induction run with
  | refl => exact ⟨inv, rfl⟩
  | tail _ step ih => exact ⟨ih.1.quiet step, (ih.1.holds_quiet step).trans ih.2⟩

/-- Every effect keeps what holds of each socket, and each open descriptor in one hand. -/
theorem Effect.kept (effect : Effect g g' M M') (sockets : ∀ s, (view g M s).Inv)
    (custody : Custody g.isOpen (carried g M) fun s => (view g M s).holds) :
    (∀ s, (view g' M' s).Inv) ∧
      Custody g'.isOpen (carried g' M') fun s => (view g' M' s).holds := by
  have others : ∀ {R s o}, At g g' M M' R s → (view g' M' s).holds = o →
      (fun t => (view g' M' t).holds) = Function.update (fun t => (view g M t).holds) s o := by
    intro R s o socket here
    funext t
    by_cases same : t = s
    · subst t
      rw [Function.update_self, here]
    · rw [Function.update_of_ne same, socket.elsewhere t same]
  have all : ∀ {R s}, At g g' M M' R s → (view g' M' s).Inv → ∀ t, (view g' M' t).Inv := by
    intro R s socket here t
    by_cases same : t = s
    · exact same ▸ here
    · rw [socket.elsewhere t same]
      exact sockets t
  cases effect with
  | quiet run opened kept =>
    refine ⟨fun s => (Inv.quietRun (sockets s) (run s)).1, ?_⟩
    have same : (fun s => (view g' M' s).holds) = fun s => (view g M s).holds :=
      funext fun s => (Inv.quietRun (sockets s) (run s)).2
    rw [same, opened, kept]
    exact custody
  | obtain fd run shut opened more =>
    refine ⟨fun s => (Inv.quietRun (sockets s) (run s)).1, ?_⟩
    have same : (fun s => (view g' M' s).holds) = fun s => (view g M s).holds :=
      funext fun s => (Inv.quietRun (sockets s) (run s)).2
    rw [same, opened, more]
    exact custody.obtain shut
  | places s fd socket opened fewer =>
    obtain ⟨free, placed⟩ := (sockets s).holds_places socket.here
    refine ⟨all socket ((sockets s).places socket.here), ?_⟩
    rw [others socket placed, opened]
    rw [fewer] at custody
    exact custody.place free
  | takes s socket opened more =>
    obtain ⟨held, free⟩ := (sockets s).holds_givesUp socket.here
    refine ⟨all socket ((sockets s).givesUp socket.here), ?_⟩
    rw [others socket free, opened, more]
    exact custody.take held
  | release fd same opened fewer =>
    rw [fewer] at custody
    simp only [same, opened]
    exact ⟨sockets, custody.release⟩
  | shuts s socket opened kept =>
    obtain ⟨held, free⟩ := (sockets s).holds_givesUp socket.here
    refine ⟨all socket ((sockets s).givesUp socket.here), ?_⟩
    rw [others socket free, opened, kept]
    exact (custody.take held).release

end
end MoonInWater.Socket
