import MoonInWater.Socket.Effect

/-! Each step of a call on a socket or of the listen task has one of the effects. -/
namespace MoonInWater.Socket
open Jobs Resource
variable {S : Type} [DecidableEq S]
variable {g g' : SocketPool S} {M : Multiset (Job S)} {job : Job S} {jobs : List (Job S)}

theorem tally_append (p : SocketPrivate) (dels regs : Nat) (N : Multiset Mark)
    (own later : List Mark) :
    tally p dels regs N (own ++ later) = tally p dels regs (later + N) own := by
  simp only [tally, List.count_append, Multiset.count_add, Multiset.coe_count, Nat.add_assoc,
    Nat.add_comm]

/-- The other sockets are as they were. -/
structure Elsewhere (g g' : SocketPool S) (s t : S) : Prop where
  priv : g'.priv t = g.priv t
  dels : g'.pDels.count t = g.pDels.count t
  registered : registered g' t = registered g t

theorem elsewhere_refl (g : SocketPool S) (s : S) (t : S) (_ : t ≠ s) : Elsewhere g g s t :=
  ⟨rfl, rfl, rfl⟩

theorem elsewhere_set (g : SocketPool S) (s : S) (p : SocketPrivate) (t : S) (other : t ≠ s) :
    Elsewhere g (g.set s p) s t := ⟨Function.update_of_ne other _ _, rfl, rfl⟩

theorem marksOn_nil (t s : S) : marksOn t s [] = [] := ite_self _

theorem no_marks (t s : S) : ([] : List Mark) = marksOn t s [] ++ [] := by rw [marksOn_nil]; rfl

/-- The step of a job on one socket, from the marks that it and the jobs after it have there;
`later` are marks that it leaves alone. -/
theorem at_of_marks {R : View → View → Prop} (s : S) (own own' : List Mark) (later : S → List Mark)
    (before : ∀ t, job.marks t = marksOn t s own ++ later t)
    (after : ∀ t, jobs.flatMap (Job.marks t) = marksOn t s own' ++ later t)
    (elsewhere : ∀ t, t ≠ s → Elsewhere g g' s t)
    (here : R (viewWith g (later s + marksOf M s) s own)
      (viewWith g' (later s + marksOf M s) s own')) : At g g' (job ::ₘ M) (jobs + M) R s where
  here := by
    rw [view_cons, view_jobs, before, after, marksOn, marksOn, if_pos rfl, if_pos rfl, viewWith,
      viewWith, tally_append, tally_append]
    exact here
  elsewhere t other := by
    have off : ∀ marks, marksOn t s marks = [] := fun _ => if_neg (Ne.symm other)
    obtain ⟨priv, dels, registered⟩ := elsewhere t other
    rw [view_cons, view_jobs, before, after, off, off, viewWith, viewWith, priv, dels, registered]

theorem at_plain {R : View → View → Prop} (s : S) (own own' : List Mark)
    (before : ∀ t, job.marks t = marksOn t s own)
    (after : ∀ t, jobs.flatMap (Job.marks t) = marksOn t s own')
    (elsewhere : ∀ t, t ≠ s → Elsewhere g g' s t)
    (here : R (viewWith g (marksOf M s) s own) (viewWith g' (marksOf M s) s own')) :
    At g g' (job ::ₘ M) (jobs + M) R s := by
  apply at_of_marks s own own' (fun _ => [])
  · simp [before]
  · simp [after]
  · exact elsewhere
  · simpa using here

/-- The step of a job that has no marks and leaves none. -/
theorem views_same (before : ∀ t, job.marks t = []) (after : ∀ t, jobs.flatMap (Job.marks t) = [])
    (same : ∀ t, g'.priv t = g.priv t ∧ g'.pDels.count t = g.pDels.count t ∧
      registered g' t = registered g t) (t : S) :
    view g' (jobs + M) t = view g (job ::ₘ M) t := by
  obtain ⟨priv, dels, registered⟩ := same t
  rw [view_cons, view_jobs, before, after, viewWith, viewWith, priv, dels, registered]

theorem viewWith_set (g : SocketPool S) (N : Multiset Mark) (s : S) (p : SocketPrivate)
    (own : List Mark) : viewWith (g.set s p) N s own =
      tally p (g.pDels.count s) (registered g s) N own := by
  simp [viewWith, SocketPool.set, registered]

/-- A step that changes one socket, apart from p_dels and epoll. -/
theorem Effect.of_set {p : SocketPrivate} (s : S) (own own' : List Mark) (later : S → List Mark)
    (before : ∀ t, job.marks t = marksOn t s own ++ later t)
    (after : ∀ t, jobs.flatMap (Job.marks t) = marksOn t s own' ++ later t)
    (carries : jobs.flatMap Job.carries = job.carries)
    (here : ∀ d r N, Quiet (tally (g.priv s) d r N own) (tally p d r N own')) :
    Effect g (g.set s p) (job ::ₘ M) (jobs + M) := by
  refine .quiet (at_of_marks s own own' later before after (elsewhere_set g s p) ?_).quiet rfl
    (carried_same rfl carries)
  rw [viewWith_set]
  exact .single (here _ _ _)

/-- A step that changes the marks on one socket. -/
theorem Effect.of_marks (s : S) (own own' : List Mark) (later : S → List Mark)
    (before : ∀ t, job.marks t = marksOn t s own ++ later t)
    (after : ∀ t, jobs.flatMap (Job.marks t) = marksOn t s own' ++ later t)
    (carries : jobs.flatMap Job.carries = job.carries)
    (here : ∀ d r N, QuietRun (tally (g.priv s) d r N own) (tally (g.priv s) d r N own')) :
    Effect g g (job ::ₘ M) (jobs + M) := by
  exact .quiet (at_of_marks s own own' later before after (elsewhere_refl g s) (here _ _ _)).quiet
    rfl (carried_same rfl carries)

/-- A step that no socket notices. -/
theorem Effect.of_same (marks : ∀ t, jobs.flatMap (Job.marks t) = job.marks t)
    (same : ∀ N t own, viewWith g' N t own = viewWith g N t own) (opened : g'.isOpen = g.isOpen)
    (kept : carried g' (jobs + M) = carried g (job ::ₘ M)) :
    Effect g g' (job ::ₘ M) (jobs + M) := by
  refine .quiet (fun t => ?_) opened kept
  rw [view_cons, view_jobs, marks, same]

def closeMarks (due : Bool) : List Mark := if due then [.close] else []

theorem closing_marks (due : Bool) (s t : S) :
    (closing due s).flatMap (Job.marks t) = marksOn t s (closeMarks due) := by
  cases due
  · exact (ite_self _).symm
  · exact List.append_nil _

omit [DecidableEq S] in
theorem closing_carries (due : Bool) (s : S) : (closing due s).flatMap Job.carries = [] := by
  cases due <;> rfl

theorem tally_dec (p : SocketPrivate) (d r : Nat) (N : Multiset Mark) :
    Quiet (tally p d r N [.hold]) (tally p.useingRefDec d r N (closeMarks p.decCloses)) := by
  have step : Quiet (tally p d r N [.hold]) _ := .dec (tally p d r N [])
  cases due : p.decCloses <;> simpa [tally, closeMarks, due] using step

theorem tally_mark {p : SocketPrivate} (made : p.made = true) (d r : Nat) (N : Multiset Mark) :
    Quiet (tally p d r N []) (tally p.setStatusClosed d r N (closeMarks p.markCloses)) := by
  have step : Quiet (tally p d r N []) _ := .mark (tally p d r N []) made
  cases due : p.markCloses <;> simpa [tally, closeMarks, due] using step

/-- A socket on which a job has something to do is there. -/
theorem View.Inv.made_of {v : View} (inv : v.Inv)
    (some : 0 < v.set + v.hold + v.add + v.connect + v.sockOpt + v.del) : v.p.made = true := by
  by_contra other
  have none := (inv.made (Bool.eq_false_of_not_eq_true other)).1
  omega

theorem Good.view_job (good : Good g (job ::ₘ M)) (s : S) :
    (viewWith g (marksOf M s) s (job.marks s)).Inv := by
  rw [← view_cons]
  exact good.socket s

omit [DecidableEq S] in
theorem View.Inv.holds_of_regs {v : View} (inv : v.Inv) (some' : 0 < v.regs) :
    v.holds = some v.p.socketFd := by
  obtain ⟨made, users, closes, drops, regs, set_le, set, add_le, add, joined, entered, completed,
    touch, connect, single, del, late⟩ := inv
  grind -linarith [View.holds, FdCat.joined]

theorem Good.listed_holds (good : Good g M) {e : Nat × S} (listed : e ∈ g.epoll) :
    (view g M e.2).holds = some e.1 := by
  have some' : 0 < (view g M e.2).regs :=
    List.count_pos_iff.mpr (List.mem_map_of_mem listed)
  rw [(good.socket e.2).holds_of_regs some', view_p, good.listed e listed]

theorem registered_del {s : S} {fd : Nat} (others : ∀ e ∈ g.epoll, e.2 = s → e.1 ≠ fd) :
    registered (g.epollDel fd) s = registered g s := by
  unfold registered SocketPool.epollDel
  rw [List.count_eq_countP, List.count_eq_countP, List.countP_map, List.countP_map,
    List.countP_filter]
  apply List.countP_congr
  intro e member
  by_cases same : e.2 = s
  · simp [same, others e member same]
  · simp [same]

theorem registered_del_own {s : S} {fd : Nat} (own : ∀ e ∈ g.epoll, e.2 = s → e.1 = fd) :
    registered (g.epollDel fd) s = 0 := by
  unfold registered SocketPool.epollDel
  apply List.count_eq_zero.mpr
  intro member
  obtain ⟨e, found, same⟩ := List.mem_map.mp member
  obtain ⟨listed, other⟩ := List.mem_filter.mp found
  exact absurd (own e listed same) (by simpa using other)

/-- EPOLL_CTL_DEL of the descriptor of a socket that is registered takes out that socket alone. -/
theorem Good.del_socket (good : Good g M) {s : S}
    (held : (view g M s).holds = some (g.priv s).socketFd) :
    registered (g.epollDel (g.priv s).socketFd) s = 0 ∧
      ∀ t, t ≠ s → registered (g.epollDel (g.priv s).socketFd) t = registered g t := by
  constructor
  · apply registered_del_own
    rintro e listed rfl
    exact (good.listed e listed).symm
  · intro t other
    apply registered_del
    rintro e listed rfl same
    have also := good.listed_holds listed
    rw [same] at also
    exact other (good.custody.single also held)

/-- A descriptor that is carried, or that a socket has stopped to use, is not in epoll. -/
theorem Good.unlisted (good : Good g M) {fd : Nat}
    (free : ∀ s, (view g M s).holds = some fd → registered g s = 0) : ∀ e ∈ g.epoll, e.1 ≠ fd := by
  rintro e listed rfl
  have none := free e.2 (good.listed_holds listed)
  exact List.count_eq_zero.mp none (List.mem_map_of_mem listed)

omit [DecidableEq S] in
theorem closeFd_unlisted {fd : Nat} (opened : g.isOpen fd = true)
    (none : ∀ e ∈ g.epoll, e.1 ≠ fd) :
    (g.closeFd fd).epoll = g.epoll ∧ (g.closeFd fd).misused = g.misused := by
  refine ⟨?_, if_pos ⟨opened, none⟩⟩
  apply List.filter_eq_self.mpr
  intro e listed
  simpa using none e listed

/-- The close of a descriptor that only the job has. -/
theorem Good.close_carried (good : Good g (job ::ₘ M)) {fd : Nat} (carries : fd ∈ job.carries) :
    (g.closeFd fd).epoll = g.epoll ∧ (g.closeFd fd).misused = g.misused := by
  have member : fd ∈ carried g (job ::ₘ M) := by
    rw [carried_cons]
    exact Multiset.mem_add.mpr (.inl carries)
  apply closeFd_unlisted ((good.custody.hands fd).mpr (.inl member))
  apply good.unlisted
  intro s held
  exact absurd member (good.custody.apart held)

/-- The close of the descriptor of a socket that _socket_close has taken out of epoll. -/
theorem Good.close_socket (good : Good g M) {s : S} (shut : 0 < (view g M s).shut) :
    (g.closeFd (g.priv s).socketFd).epoll = g.epoll ∧
      (g.closeFd (g.priv s).socketFd).misused = g.misused := by
  obtain ⟨made, users, closes, drops, regs, set_le, set, add_le, add, joined, entered, completed,
    touch, connect, single, del, late⟩ := good.socket s
  have held : (view g M s).holds = some (g.priv s).socketFd := by
    rw [View.holds, if_pos, view_p]
    exact ⟨by grind -linarith, .inr (.inl shut)⟩
  apply closeFd_unlisted (good.custody.held_open held)
  apply good.unlisted
  intro t also
  rw [good.custody.single also held]
  have none : (view g M s).regs = 0 := by grind -linarith
  exact none

/-- A socket in epoll that _socket_close is to take out of it. -/
theorem Good.closing {s : S} (good : Good g (.socketClose s ::ₘ M))
    (joined : (g.priv s).fdCat.joined = true) :
    registered g s = 1 ∧
      (view g (.socketClose s ::ₘ M) s).holds = some (g.priv s).socketFd := by
  have due : 0 < (view g (.socketClose s ::ₘ M) s).close := by
    rw [view_cons]
    simp [viewWith, tally, Job.marks, marksOn]
  obtain ⟨made, users, closes, drops, regs, set_le, set, add_le, add, orAdd, entered, completed,
    touch, connect, single, del, late⟩ := good.socket s
  have once : (view g (.socketClose s ::ₘ M) s).regs = 1 := by
    rw [view_p] at *
    grind -linarith [FdCat.joined]
  exact ⟨once, by rw [(good.socket s).holds_of_regs (by omega), view_p]⟩

/-- _socket_close of a socket that is in epoll. -/
theorem Good.close_joined {s : S} (good : Good g (.socketClose s ::ₘ M))
    (joined : (g.priv s).fdCat.joined = true) :
    Effect g
      ((g.set s { g.priv s with closes := (g.priv s).closes + 1 }).epollDel (g.priv s).socketFd)
      (.socketClose s ::ₘ M) (([.numDec s] : List (Job S)) + M) := by
  obtain ⟨_, held⟩ := good.closing joined
  obtain ⟨none, others⟩ := good.del_socket held
  refine .quiet (At.quiet (at_plain s [.close] [.shut] (fun _ => rfl)
    (fun _ => List.append_nil _) (fun t other => ?_) ?_)) rfl (carried_same rfl rfl)
  · exact ⟨Function.update_of_ne other _ _, rfl, others t other⟩
  · have here : viewWith ((g.set s { g.priv s with closes := (g.priv s).closes + 1 }).epollDel
        (g.priv s).socketFd) (marksOf M s) s [.shut] =
          tally { g.priv s with closes := (g.priv s).closes + 1 } (g.pDels.count s) 0
            (marksOf M s) [.shut] := by
      rw [← none, viewWith]
      simp [SocketPool.epollDel, SocketPool.set, registered]
    rw [here]
    exact .single (.closeJoined (viewWith g (marksOf M s) s []) joined)

theorem callAct_effect {a : Answer S} (good : Good g (job ::ₘ M))
    (acted : callAct a job g = some (g', jobs)) : Effect g g' (job ::ₘ M) (jobs + M) := by
  cases job with
  | newSocket kind s =>
    simp only [callAct] at acted
    split at acted
    next => contradiction
    next fresh =>
      cases acted
      exact .of_set s [] [.set] (fun _ => []) (fun _ => no_marks _ _)
        (fun _ => rfl) rfl
        fun d r N => .new (tally _ d r N []) (Bool.eq_false_of_not_eq_true fresh)
  | socket kind s =>
    simp only [callAct] at acted
    split at acted
    · split at acted
      next => contradiction
      next closed =>
        cases acted
        refine .obtain a.fd (fun t => ?_) (Bool.eq_false_of_not_eq_true closed) rfl
          (carried_more rfl rfl)
        rw [view_cons, view_jobs, List.flatMap_singleton]
        exact .refl
    · cases acted
      exact .of_marks s [.set] [] (fun _ => []) (fun _ => (List.append_nil _).symm)
        (fun _ => no_marks _ _) rfl fun d r N => .single (.unset (tally _ d r N []))
  | setUp kind s fd =>
    simp only [callAct] at acted
    split at acted
    · cases kind <;> cases acted <;>
        exact .of_same (fun _ => List.append_nil _) (fun _ _ _ => rfl) rfl (carried_same rfl rfl)
    · cases acted
      exact .of_marks s [.set] [] (fun _ => []) (fun _ => (List.append_nil _).symm)
        (fun _ => no_marks _ _) rfl fun d r N => .single (.unset (tally _ d r N []))
  | connect s fd =>
    simp only [callAct] at acted
    split at acted
    · cases acted
      exact .of_marks s [.set] [] (fun _ => []) (fun _ => (List.append_nil _).symm)
        (fun _ => no_marks _ _) rfl fun d r N => .single (.unset (tally _ d r N []))
    · split at acted <;> cases acted
      · exact .of_same (fun _ => List.append_nil _) (fun _ _ _ => rfl) rfl (carried_same rfl rfl)
      · refine .quiet (At.quiet (at_plain s [.set] [] (fun _ => rfl)
          (fun _ => (marksOn_nil _ _).symm) (fun _ _ => ⟨rfl, rfl, rfl⟩) ?_)) rfl (carried_leak rfl)
        exact .single (.unset (viewWith g (marksOf M s) s []))
  | useingInc kind s fd =>
    have made := (good.view_job s).made_of (by simp [viewWith, tally, Job.marks, marksOn])
    simp only [callAct] at acted
    split at acted
    next =>
      cases acted
      exact .of_marks s [.set] [] (fun _ => []) (fun _ => (List.append_nil _).symm)
        (fun _ => no_marks _ _) rfl fun d r N => .single (.unset (tally _ d r N []))
    next opened =>
      cases acted
      exact .of_set s [.set] [.set, .hold] (fun _ => []) (fun _ => (List.append_nil _).symm)
        (fun _ => rfl) rfl
        fun d r N => .inc (tally _ d r N [.set]) made (Bool.eq_false_of_not_eq_true opened)
  | place kind s fd =>
    cases acted
    refine .places s fd (at_plain s [.set, .hold] [.add] (fun _ => rfl)
      (fun _ => List.append_nil _) (elsewhere_set g s _) ?_) rfl (carried_fewer rfl rfl)
    rw [viewWith_set]
    exact .place (viewWith g (marksOf M s) s []) kind
  | epollAdd adder s fd =>
    simp only [callAct] at acted
    split at acted
    · cases acted
      refine .quiet (at_plain s [.add] [.hold] (fun _ => rfl) (fun _ => List.append_nil _)
        ?_ ?_).quiet rfl (carried_same rfl rfl)
      · intro t other
        refine ⟨Function.update_of_ne other _ _, rfl, ?_⟩
        exact List.count_cons_of_ne (Ne.symm other)
      · have here : viewWith (g.epollAdd s (g.priv s).socketFd) (marksOf M s) s [.hold] =
            tally { g.priv s with entered := true } (g.pDels.count s) (registered g s + 1)
              (marksOf M s) [.hold] := by
          simp [viewWith, SocketPool.epollAdd, SocketPool.set, registered]
        rw [here]
        exact .single (.enter (viewWith g (marksOf M s) s []))
    · cases acted
      exact .of_same (fun _ => List.append_nil _) (fun _ _ _ => rfl) rfl (carried_same rfl rfl)
  | addFailed adder s fd =>
    cases adder with
    | newSocket =>
      cases acted
      refine .takes s (at_plain s [.add] [.hold] (fun _ => rfl) (fun _ => List.append_nil _)
        (elsewhere_set g s _) ?_) rfl (carried_more rfl ?_)
      · rw [viewWith_set]
        exact .addFailed (viewWith g (marksOf M s) s [])
      · rw [good.adding (.inr (Multiset.mem_cons_self _ _))]
        rfl
    | start =>
      cases acted
      exact .of_set s [.add] [.hold] (fun _ => []) (fun _ => (List.append_nil _).symm)
        (fun _ => rfl) rfl fun d r N => .unjoin (tally _ d r N [])
  | numInc s =>
    cases acted
    exact .of_same (fun _ => List.append_nil _) (fun _ _ _ => rfl) rfl (carried_same rfl rfl)
  | close fd =>
    cases acted
    have carries : fd ∈ (Job.close fd : Job S).carries := List.mem_singleton_self fd
    have unlisted := (good.close_carried carries).1
    refine .release fd (views_same (fun _ => rfl) (fun _ => rfl) fun t => ⟨rfl, rfl, ?_⟩) rfl
      (carried_fewer rfl rfl)
    rw [registered, unlisted, registered]
  | useingRefDec s =>
    cases acted
    exact .of_set s [.hold] (closeMarks _) (fun _ => []) (fun _ => (List.append_nil _).symm)
      (fun _ => (closing_marks _ _ _).trans (List.append_nil _).symm) (closing_carries _ _)
      (tally_dec _)
  | setStatusClosed s =>
    simp only [callAct] at acted
    split at acted
    next made =>
      cases acted
      exact .of_set s [] (closeMarks _) (fun _ => []) (fun _ => no_marks _ _)
        (fun _ => (closing_marks _ _ _).trans (List.append_nil _).symm) (closing_carries _ _)
        (tally_mark made)
    next => contradiction
  | socketClose s =>
    dsimp only [callAct] at acted
    split at acted
    next cat =>
      cases acted
      exact .of_set s [.close] [.leave] (fun _ => []) (fun _ => (List.append_nil _).symm)
        (fun _ => rfl) rfl fun d r N => .closeNone (tally _ d r N []) cat
    next cat =>
      cases acted
      exact .of_set s [.close] [.shut] (fun _ => []) (fun _ => (List.append_nil _).symm)
        (fun _ => rfl) rfl fun d r N => .closeUnjoined (tally _ d r N []) cat
    all_goals
      rename_i cat
      cases acted
      exact good.close_joined (by rw [cat]; rfl)
  | numDec s =>
    cases acted
    exact .of_same (fun _ => List.append_nil _) (fun _ _ _ => rfl) rfl (carried_same rfl rfl)
  | closeFd s =>
    cases acted
    have shut : 0 < (view g (.closeFd s ::ₘ M) s).shut := by
      rw [view_cons]
      simp [viewWith, tally, Job.marks, marksOn]
    have unlisted := (good.close_socket shut).1
    refine .shuts s (at_plain s [.shut] [.leave] (fun _ => rfl) (fun _ => List.append_nil _)
      (fun t _ => ⟨rfl, rfl, ?_⟩) ?_) rfl (carried_same rfl rfl)
    · rw [registered, unlisted, registered]
    · have same : viewWith (g.closeFd (g.priv s).socketFd) (marksOf M s) s [.leave] =
          viewWith g (marksOf M s) s [.leave] := by
        rw [viewWith, registered, unlisted]
        rfl
      rw [same]
      exact .shut (viewWith g (marksOf M s) s [])
  | pipeClose s =>
    simp only [callAct] at acted
    split at acted
    next joined =>
      cases acted
      refine .quiet (At.quiet (at_plain s [.leave] [] (fun _ => rfl)
        (fun _ => (marksOn_nil _ _).symm)
        (fun t other => ⟨rfl, List.count_cons_of_ne (Ne.symm other), rfl⟩) ?_)) rfl
        (carried_same rfl rfl)
      have step := Quiet.leaveJoined (viewWith g (marksOf M s) s []) joined
      have more : (s :: g.pDels).count s = g.pDels.count s + 1 := List.count_cons_self
      unfold viewWith registered
      rw [more]
      exact .single step
    next unjoined =>
      cases acted
      exact .of_set s [.leave] [] (fun _ => []) (fun _ => (List.append_nil _).symm)
        (fun _ => no_marks _ _) rfl
        fun d r N => .leave (tally _ d r N []) (Bool.eq_false_of_not_eq_true unjoined)
  | setSocketNonblock s fd | getOtherPointRef s fd =>
    simp only [callAct] at acted
    split at acted <;> cases acted
    · exact .of_same (fun _ => rfl) (fun _ _ _ => rfl) rfl (carried_same rfl rfl)
    · exact .of_same (fun _ => rfl) (fun _ _ _ => rfl) rfl (carried_leak rfl)
  | pipeNew s fd =>
    simp only [callAct] at acted
    split at acted
    · split at acted
      next => contradiction
      next fresh =>
        cases acted
        refine .places a.socket fd (at_plain a.socket [] [] (fun _ => (marksOn_nil _ _).symm)
          (fun _ => (marksOn_nil _ _).symm) (elsewhere_set g a.socket _) ?_) rfl
          (carried_fewer rfl rfl)
        rw [viewWith_set]
        exact .make (viewWith g _ a.socket []) (Bool.eq_false_of_not_eq_true fresh)
    · cases acted
      exact .of_same (fun _ => rfl) (fun _ _ _ => rfl) rfl (carried_leak rfl)
  | onReady s =>
    simp only [callAct] at acted
    split at acted <;> cases acted <;>
      exact .of_same (fun _ => rfl) (fun _ _ _ => rfl) rfl (carried_same rfl rfl)
  | socketRw s | socketStart s =>
    simp only [callAct] at acted
    split at acted
    next made =>
      split at acted <;> cases acted
      next => exact .of_same (fun _ => rfl) (fun _ _ _ => rfl) rfl (carried_same rfl rfl)
      next opened =>
        exact .of_set s [] [.hold] (fun _ => []) (fun _ => no_marks _ _) (fun _ => rfl) rfl
          fun d r N => .inc (tally _ d r N []) made (Bool.eq_false_of_not_eq_true opened)
    next => contradiction
  | transfer s =>
    simp only [callAct] at acted
    split at acted <;> cases acted <;>
      exact .of_same (fun _ => List.append_nil _) (fun _ _ _ => rfl) rfl (carried_same rfl rfl)
  | join s =>
    simp only [callAct] at acted
    split at acted
    next unjoined =>
      cases acted
      exact .of_set s [.hold] [.add] (fun _ => []) (fun _ => (List.append_nil _).symm)
        (fun _ => rfl) rfl fun d r N => .join (tally _ d r N []) unjoined
    next =>
      cases acted
      exact .of_same (fun _ => List.append_nil _) (fun _ _ _ => rfl) rfl (carried_same rfl rfl)
  | _ => contradiction

end MoonInWater.Socket
