import MoonInWater.Socket.Step

/-! The effects of the steps of the listen task, which is the only one. -/
namespace MoonInWater.Socket
open Jobs Resource
variable {S : Type} [DecidableEq S]
variable {g g' : SocketPool S} {M : Multiset (Job S)} {job : Job S} {jobs : List (Job S)}

/-- The marks that a job of the listen task alone can have. -/
def Mark.listens : Mark → Bool
  | .touch | .connect | .sockOpt | .del => true
  | _ => false

theorem mem_marksOn {k : Mark} {t s : S} {marks : List Mark} (member : k ∈ marksOn t s marks) :
    k ∈ marks := by
  unfold marksOn at member
  split at member
  · exact member
  · contradiction

theorem listener_of_mark {k : Mark} {s : S} (member : k ∈ job.marks s)
    (listens : k.listens = true) : job.listener = true := by
  cases job with
  | batch | event | drain => rfl
  | socket kind t | setUp kind t fd | connect t fd | useingInc kind t fd | place kind t fd
  | epollAdd adder t fd | addFailed adder t fd | numInc t | useingRefDec t | transfer t | join t
  | socketClose t | numDec t | closeFd t | pipeClose t =>
    have inside := mem_marksOn member
    simp at inside
    grind -linarith [Mark.listens]
  | _ => contradiction

/-- While the listen task takes a step no other job has such a mark. -/
theorem Good.idle (good : Good g (job ::ₘ M)) (listener : job.listener = true) {k : Mark}
    (listens : k.listens = true) (s : S) : (marksOf M s).count k = 0 := by
  have count := good.listener
  rw [Multiset.countP_cons_of_pos (p := fun job : Job S => job.listener = true) M listener] at count
  have none : M.countP (fun job => job.listener = true) = 0 := by
    split at count <;> omega
  apply Multiset.count_eq_zero.mpr
  intro member
  obtain ⟨other, found, marked⟩ := Multiset.mem_bind.mp member
  exact Multiset.countP_eq_zero.mp none other found (listener_of_mark marked listens)

theorem Good.listening (good : Good g (job ::ₘ M)) (listener : job.listener = true) :
    g.listening = true := by
  have count := good.listener
  rw [Multiset.countP_cons_of_pos (p := fun job : Job S => job.listener = true) M listener] at count
  split at count
  · assumption
  · omega

/-- After a step at an event the listen task still has the socket among its events, or no longer. -/
def Keeps (keep : List Mark) : Prop := keep = [.touch] ∨ keep = []

/-- A job with which the listen task goes on after a step at the socket. -/
structure Next (s : S) (later : List (S × Events)) (job : Job S) : Prop where
  marks : ∃ keep, Keeps keep ∧ ∀ t, job.marks t = marksOn t s keep ++ touches t later
  carries : job.carries = []
  listener : job.listener = true

theorem toHangUp_next (s : S) (mask : Events) (later : List (S × Events)) :
    Next s later (toHangUp s mask later) := by
  unfold toHangUp
  split
  · exact ⟨⟨[.touch], .inl rfl, fun _ => rfl⟩, rfl, rfl⟩
  · exact ⟨⟨[], .inr rfl, fun t => by rw [marksOn_nil]; rfl⟩, rfl, rfl⟩

theorem toWrite_next (s : S) (mask : Events) (later : List (S × Events)) :
    Next s later (toWrite s mask later) := by
  unfold toWrite
  split
  · exact ⟨⟨[.touch], .inl rfl, fun _ => rfl⟩, rfl, rfl⟩
  · exact toHangUp_next s mask later

theorem toRead_next (s : S) (mask : Events) (later : List (S × Events)) :
    Next s later (toRead s mask later) := by
  unfold toRead
  split
  · exact ⟨⟨[.touch], .inl rfl, fun _ => rfl⟩, rfl, rfl⟩
  · exact toWrite_next s mask later

theorem toNext_next (write : Bool) (s : S) (mask : Events) (later : List (S × Events)) :
    Next s later (toNext write s mask later) := by
  cases write
  · exact toWrite_next s mask later
  · exact toHangUp_next s mask later

theorem goto_marks (pc : ListenPc) (s : S) (mask : Events) (later : List (S × Events)) (t : S) :
    [Job.event pc s mask later].flatMap (Job.marks t) =
      marksOn t s (pc.marks ++ [.touch]) ++ touches t later := List.append_nil _

theorem tally_untouch {keep : List Mark} (keeps : Keeps keep) (p : SocketPrivate) (d r : Nat)
    (N : Multiset Mark) (own : List Mark) :
    QuietRun (tally p d r N (own ++ [.touch])) (tally p d r N (own ++ keep)) := by
  rcases keeps with rfl | rfl
  · exact .refl
  · have step := Quiet.untouch (tally p d r N own)
    rw [List.append_nil]
    exact .single (by simpa [tally, Nat.add_assoc] using step)

/-- A step at an event, from what it does apart from the mark of the event. -/
theorem Effect.of_event {pc : ListenPc} {s : S} {mask : Events} {later : List (S × Events)}
    {p : SocketPrivate} (own keep : List Mark) (keeps : Keeps keep)
    (after : ∀ t, jobs.flatMap (Job.marks t) = marksOn t s (own ++ keep) ++ touches t later)
    (carries : jobs.flatMap Job.carries = [])
    (here : QuietRun
      (tally (g.priv s) (g.pDels.count s) (registered g s)
        (([.touch] : List Mark) + (touches s later + marksOf M s)) pc.marks)
      (tally p (g.pDels.count s) (registered g s)
        (([.touch] : List Mark) + (touches s later + marksOf M s)) own)) :
    Effect g (g.set s p) (.event pc s mask later ::ₘ M) (jobs + M) := by
  refine .quiet (at_of_marks s (pc.marks ++ [.touch]) (own ++ keep) (fun t => touches t later)
    (fun _ => rfl) after (elsewhere_set g s p) ?_).quiet rfl (carried_same rfl carries)
  rw [viewWith_set, viewWith, tally_append]
  refine here.trans ?_
  rw [← tally_append]
  exact tally_untouch keeps _ _ _ _ _

theorem Effect.of_event_marks {pc : ListenPc} {s : S} {mask : Events} {later : List (S × Events)}
    (own keep : List Mark) (keeps : Keeps keep)
    (after : ∀ t, jobs.flatMap (Job.marks t) = marksOn t s (own ++ keep) ++ touches t later)
    (carries : jobs.flatMap Job.carries = [])
    (here : QuietRun
      (tally (g.priv s) (g.pDels.count s) (registered g s)
        (([.touch] : List Mark) + (touches s later + marksOf M s)) pc.marks)
      (tally (g.priv s) (g.pDels.count s) (registered g s)
        (([.touch] : List Mark) + (touches s later + marksOf M s)) own)) :
    Effect g g (.event pc s mask later ::ₘ M) (jobs + M) := by
  have same : g.set s (g.priv s) = g := by rw [SocketPool.set, Function.update_eq_self]
  have effect : Effect g (g.set s (g.priv s)) (.event pc s mask later ::ₘ M) (jobs + M) :=
    .of_event own keep keeps after carries here
  rwa [same] at effect

theorem marksOn_append (t s : S) (marks more : List Mark) :
    marksOn t s marks ++ marksOn t s more = marksOn t s (marks ++ more) := by
  unfold marksOn
  split <;> rfl

/-- The listen task goes on after a call that may have closed the socket. -/
theorem closing_next {due : Bool} {s : S} {next : Job S} {keep : List Mark}
    {later : List (S × Events)}
    (marks : ∀ t, next.marks t = marksOn t s keep ++ touches t later) (t : S) :
    (closing due s ++ [next]).flatMap (Job.marks t) =
      marksOn t s (closeMarks due ++ keep) ++ touches t later := by
  rw [List.flatMap_append, closing_marks, List.flatMap_singleton, marks, ← List.append_assoc,
    marksOn_append]

omit [DecidableEq S] in
theorem closing_next_carries {due : Bool} {s : S} {next : Job S} (carries : next.carries = []) :
    (closing due s ++ [next]).flatMap Job.carries = [] := by
  rw [List.flatMap_append, closing_carries, List.flatMap_singleton, carries]
  rfl

/-- A socket whose connect has completed, and that is still in epoll. -/
theorem Good.completing {s : S} {mask : Events} {later : List (S × Events)}
    (good : Good g (.event .connectDel s mask later ::ₘ M)) :
    registered g s = 1 ∧ (view g (.event .connectDel s mask later ::ₘ M) s).holds =
      some (g.priv s).socketFd := by
  have due : 0 < (view g (.event .connectDel s mask later ::ₘ M) s).del := by
    rw [view_cons]
    simp [viewWith, tally, Job.marks, marksOn, ListenPc.marks]
  obtain ⟨made, users, closes, drops, regs, set_le, set, add_le, add, joined, entered, completed,
    touch, connect, single, del, late⟩ := good.socket s
  have once : (view g (.event .connectDel s mask later ::ₘ M) s).regs = 1 := by
    rw [view_p] at *
    grind -linarith
  exact ⟨once, by rw [(good.socket s).holds_of_regs (by omega), view_p]⟩

/-- The connect has completed: the descriptor goes from the socket to the task. -/
theorem Good.connectDel {a : Answer S} {s : S} {mask : Events} {later : List (S × Events)}
    (good : Good g (.event .connectDel s mask later ::ₘ M))
    (acted : eventAct a s mask later .connectDel g = some (g', jobs)) :
    Effect g g' (.event .connectDel s mask later ::ₘ M) (jobs + M) := by
  cases acted
  obtain ⟨_, held⟩ := good.completing
  obtain ⟨none, others⟩ := good.del_socket held
  refine .takes s (at_of_marks s [.del, .touch] [.hold, .touch] (fun t => touches t later)
    (fun _ => rfl) (fun _ => List.append_nil _) (fun t other => ?_) ?_) rfl (carried_more rfl rfl)
  · exact ⟨Function.update_of_ne other _ _, rfl, others t other⟩
  · generalize touches s later + marksOf M s = N
    have after : viewWith { (g.set s { g.priv s with completed := true }).epollDel
        (g.priv s).socketFd with connects := g.connects + 1 } N s [.hold, .touch] =
          tally { g.priv s with completed := true } (g.pDels.count s) 0 N [.hold, .touch] := by
      rw [← none, viewWith]
      simp [SocketPool.epollDel, SocketPool.set, registered]
    rw [after]
    exact .connectDel (viewWith g N s [.touch])

theorem eventAct_effect {a : Answer S} {pc : ListenPc} {s : S} {mask : Events}
    {later : List (S × Events)} (good : Good g (.event pc s mask later ::ₘ M))
    (acted : eventAct a s mask later pc g = some (g', jobs)) :
    Effect g g' (.event pc s mask later ::ₘ M) (jobs + M) := by
  have inv := good.view_job s
  have own : (Job.event pc s mask later).marks s = pc.marks ++ [.touch] ++ touches s later :=
    congrArg (· ++ touches s later) (if_pos rfl)
  rw [own, viewWith, tally_append, tally_append] at inv
  have made : (g.priv s).made = true := by
    have entered := inv.touch (by simp [tally])
    by_contra other
    exact absurd ((inv.made (Bool.eq_false_of_not_eq_true other)).2.1) (by simp_all)
  cases pc with
  | canRead =>
    dsimp only [eventAct] at acted
    split at acted <;> cases acted
    · exact .of_event_marks [] [.touch] (.inl rfl) (goto_marks _ s mask later) rfl .refl
    · exact .of_event_marks [] [.touch] (.inl rfl) (goto_marks _ s mask later) rfl .refl
    all_goals
      obtain ⟨⟨keep, keeps, next⟩, carries, _⟩ := toWrite_next s mask later
      exact .of_event_marks [] keep keeps (fun t => (List.append_nil _).trans (next t))
        ((List.append_nil _).trans carries) .refl
  | canWrite =>
    dsimp only [eventAct] at acted
    split at acted
    next =>
      cases acted
      exact .of_event_marks [] [.touch] (.inl rfl) (goto_marks _ s mask later) rfl .refl
    next cat =>
      cases acted
      have idle : ∀ k : Mark, k.listens = true → k ≠ .touch →
          (([.touch] : List Mark) + (touches s later + marksOf M s) : Multiset Mark).count k =
            0 := by
        intro k listens other
        have none := Multiset.count_eq_zero.mp (good.idle rfl listens s)
        simp [touches, other, none]
      exact .of_event_marks [.connect] [.touch] (.inl rfl) (goto_marks _ s mask later) rfl
        (.single (.connect (tally _ _ _ _ []) cat (by simp [tally])
          ⟨idle .connect rfl (by simp), idle .sockOpt rfl (by simp), idle .del rfl (by simp)⟩))
    all_goals
      cases acted
      obtain ⟨⟨keep, keeps, next⟩, carries, _⟩ := toHangUp_next s mask later
      exact .of_event_marks [] keep keeps (fun t => (List.append_nil _).trans (next t))
        ((List.append_nil _).trans carries) .refl
  | notify write =>
    dsimp only [eventAct] at acted
    cases acted
    split
    · obtain ⟨⟨keep, keeps, next⟩, carries, _⟩ := toNext_next write s mask later
      exact .of_event_marks [] keep keeps (fun t => (List.append_nil _).trans (next t))
        ((List.append_nil _).trans carries) .refl
    · exact .of_event_marks [] [.touch] (.inl rfl) (goto_marks _ s mask later) rfl .refl
  | setClosed write =>
    cases acted
    obtain ⟨⟨keep, keeps, next⟩, carries, _⟩ := toNext_next write s mask later
    exact .of_event (closeMarks _) keep keeps (closing_next next) (closing_next_carries carries)
      (.single (tally_mark made _ _ _))
  | listenInc =>
    dsimp only [eventAct] at acted
    split at acted <;> cases acted
    next => exact .of_event_marks [] [.touch] (.inl rfl) (goto_marks _ s mask later) rfl .refl
    next opened =>
      exact .of_event [.hold] [.touch] (.inl rfl) (goto_marks _ s mask later) rfl
        (.single (.inc (tally _ _ _ _ []) made (Bool.eq_false_of_not_eq_true opened)))
  | accept =>
    dsimp only [eventAct] at acted
    split at acted
    · split at acted
      next => contradiction
      next closed =>
        cases acted
        refine .obtain a.fd (fun t => ?_) (Bool.eq_false_of_not_eq_true closed) rfl
          (carried_more rfl rfl)
        rw [view_cons, view_jobs, List.flatMap_cons, goto_marks]
        exact .refl
    · cases acted
      split <;>
        exact .of_event_marks [.hold] [.touch] (.inl rfl) (goto_marks _ s mask later) rfl .refl
  | listenDec =>
    cases acted
    obtain ⟨⟨keep, keeps, next⟩, carries, _⟩ := toWrite_next s mask later
    exact .of_event (closeMarks _) keep keeps (closing_next next) (closing_next_carries carries)
      (.single (tally_dec _ _ _ _))
  | connectInc =>
    dsimp only [eventAct] at acted
    split at acted <;> cases acted
    next =>
      exact .of_event_marks [] [.touch] (.inl rfl) (goto_marks _ s mask later) rfl
        (.single (.unconnect (tally _ _ _ _ [])))
    next opened =>
      exact .of_event [.sockOpt] [.touch] (.inl rfl) (goto_marks _ s mask later) rfl
        (.single (.connectInc (tally _ _ _ _ []) (Bool.eq_false_of_not_eq_true opened)))
  | getSockOpt =>
    dsimp only [eventAct] at acted
    split at acted <;> cases acted
    · exact .of_event [.del] [.touch] (.inl rfl) (goto_marks _ s mask later) rfl
        (.single (.connected (tally _ _ _ _ [])))
    · exact .of_event_marks [.hold] [.touch] (.inl rfl) (goto_marks _ s mask later) rfl
        (.single (.connectFails (tally _ _ _ _ [])))
  | connectDel => exact good.connectDel acted
  | connectDec =>
    cases acted
    exact .of_event (closeMarks _) [.touch] (.inl rfl)
      (closing_next fun _ => rfl) (closing_next_carries rfl) (.single (tally_dec _ _ _ _))
  | hangUp =>
    cases acted
    exact .of_event (closeMarks _) [] (.inr rfl) (closing_next fun t => by rw [marksOn_nil]; rfl)
      (closing_next_carries rfl) (.single (tally_mark made _ _ _))

theorem listenAct_effect {a : Answer S} (good : Good g (job ::ₘ M))
    (acted : listenAct a job g = some (g', jobs)) : Effect g g' (job ::ₘ M) (jobs + M) := by
  cases job with
  | getSocketpoolInstance =>
    dsimp only [listenAct] at acted
    split at acted
    · cases acted
      exact .of_same (fun _ => rfl) (fun _ _ _ => rfl) rfl (carried_same rfl rfl)
    · split at acted <;> cases acted <;>
        exact .of_same (fun _ => rfl) (fun _ _ _ => rfl) rfl (carried_same rfl rfl)
  | epollWait =>
    dsimp only [listenAct] at acted
    split at acted
    · split at acted
      next listed =>
        cases acted
        refine .quiet (fun t => ?_) rfl (carried_same rfl rfl)
        have step := Quiet.wait (viewWith g (marksOf M t) t [])
          ((a.events.map Prod.fst).count t) fun some' => by
            obtain ⟨e, member, rfl⟩ := List.mem_map.mp (List.count_pos_iff.mp some')
            obtain ⟨f, found, same⟩ := List.any_eq_true.mp (List.all_eq_true.mp listed e member)
            rw [← of_decide_eq_true same]
            exact List.count_pos_iff.mpr (List.mem_map_of_mem found)
        rw [view_cons, view_jobs]
        refine .single ?_
        simpa [viewWith, tally, Job.marks, touches, List.count_replicate] using step
      next => contradiction
    · cases acted
      exact .of_same (fun _ => rfl) (fun _ _ _ => rfl) rfl (carried_same rfl rfl)
  | batch events =>
    cases events with
    | nil =>
      cases acted
      exact .of_same (fun _ => rfl) (fun _ _ _ => rfl) rfl (carried_same rfl rfl)
    | cons e later =>
      obtain ⟨s, mask⟩ := e
      cases acted
      obtain ⟨⟨keep, keeps, next⟩, carries, _⟩ := toRead_next s mask later
      refine .of_marks s [.touch] keep (fun t => touches t later) (fun t => ?_)
        (fun t => (List.append_nil _).trans (next t)) ((List.append_nil _).trans carries)
        fun d r N => tally_untouch keeps _ d r N []
      by_cases same : s = t
      · subst t
        simp [Job.marks, touches, marksOn, List.replicate_succ]
      · simp [Job.marks, touches, marksOn, same]
  | event pc s mask later => exact eventAct_effect good acted
  | takeDels =>
    cases acted
    refine .quiet (fun t => ?_) rfl (carried_same rfl rfl)
    have step := Quiet.takeDels (viewWith g (marksOf M t) t [])
      (good.idle (k := .touch) rfl rfl t)
    rw [view_cons, view_jobs]
    refine .single ?_
    simpa [viewWith, tally, Job.marks, List.count_replicate, registered] using step
  | drain dels =>
    cases dels with
    | nil =>
      cases acted
      exact .of_same (fun _ => rfl) (fun _ _ _ => rfl) rfl (carried_same rfl rfl)
    | cons s dels =>
      cases acted
      refine .of_set s [.drain] [] (fun t => List.replicate (dels.count t) .drain) (fun t => ?_)
        (fun t => ?_) rfl fun d r N => .drain (tally _ d r N [])
      · by_cases same : s = t
        · subst t
          simp [Job.marks, marksOn, List.replicate_succ]
        · simp [Job.marks, marksOn, same]
      · simp [Job.marks, marksOn]
  | _ => contradiction

theorem act_effect {a : Answer S} (good : Good g (job ::ₘ M))
    (acted : act a job g = some (g', jobs)) : Effect g g' (job ::ₘ M) (jobs + M) := by
  unfold act at acted
  split at acted
  · exact listenAct_effect good acted
  · exact callAct_effect good acted

end MoonInWater.Socket
