import MoonInWater.Timer.Round

/-! The invariant of the timers: which of them are in the queue, in the round or among
the deleted ones can be told from their status, as long as no call is made on a timer
that has run out of repeats while others are queued. -/
namespace MoonInWater.Timer
open Avl Chain DList Fuel
variable {P : Type} {others : List (List P)} {s s' : State P} {queue queue' : List (P × List P)} {batch dels : List P}
  {p q : P}

/-- The timers that are to be in the queue. -/
structure State.Active (s : State P) (p : P) : Prop where
  started : s.started p = true
  processing : (s.inter p).processing = false
  stop : (s.inter p).stop = false
  del : (s.inter p).del = false
  repeats : (s.inter p).desc.repeatNum ≠ 0

/-- The chain of the round and the list of the deleted timers hang on the pointers of
the thread. -/
def Task.Holds (batch dels : List P) : Task P → Prop
  | .idle => batch = [] ∧ dels = []
  | .visiting pInter last =>
    dels = [] ∧ batch.head? = some pInter ∧ ∃ a b, batch = a ++ b ∧ last = a.getLast?
  | .closing pInterDels => batch = [] ∧ dels.head? = some pInterDels

structure Inv (s : State P) (queue : List (P × List P)) (batch dels : List P) : Prop where
  queued : Queued s queue [batch, dels]
  earliest : s.earliest = (heads queue).head?
  task : s.task.Holds batch dels
  linked : ∀ p, p ∈ members queue ↔ s.Active p
  processing : ∀ p, (s.inter p).processing = true ↔ p ∈ batch
  deleted : ∀ p ∈ dels, (s.inter p).del = true ∧ (s.inter p).stop = true
  begun : ∀ p ∈ batch ++ dels, s.started p = true
  fresh : ∀ p, s.started p = false → (s.inter p).stop = false ∧ (s.inter p).del = false
  once : ∀ p, s.released p ≤ 1
  released : ∀ p, s.released p = 1 ↔ (s.inter p).del = true ∧ p ∉ batch ∧ p ∉ dels

theorem inv_init (tvBase : TimeVal) : Inv (init tvBase : State P) [] [] [] where
  queued := ⟨indexed_nil rfl fun _ => rfl,
    chains_nil.mpr (chains_nil.mpr (.nil fun _ => rfl)), by simp⟩
  earliest := rfl
  task := ⟨rfl, rfl⟩
  linked p := by
    constructor
    · intro member
      contradiction
    · intro active
      exact absurd active.started (by simp [init])
  processing := by simp [init]
  deleted := by simp
  begun := by simp
  fresh := by simp [init]
  once := by simp [init]
  released := by simp [init]

/-- What a call with the descriptor `desc` may change of its timer: the repeats end only
with a stop. -/
structure Told (desc : Option Desc) (i i' : Inter) : Prop where
  processing : i'.processing = i.processing
  prevMarkId : i'.prevMarkId = i.prevMarkId
  del : i.del = true → i'.del = true
  desc : i'.desc = i.desc ∨ some i'.desc = desc
  rests : i'.desc.repeatNum = 0 → i'.stop = true ∨ i'.desc = i.desc ∧ i'.stop = i.stop

/-- A call on `p` leaves the other timers as they are. -/
structure Touches (desc : Option Desc) (s s' : State P) (p : P)
    (queue queue' : List (P × List P)) : Prop where
  told : Told desc (s.inter p) (s'.inter p)
  begun : s.started p = true ∨ s'.started p = false ∨
    ((s'.inter p).desc.repeatNum = 0 → (s'.inter p).stop = true)
  members : ∀ q, q ≠ p → (q ∈ members queue' ↔ q ∈ members queue)
  inter : ∀ q, q ≠ p → s'.inter q = s.inter q
  started : ∀ q, q ≠ p → s'.started q = s.started q
  released : ∀ q, q ≠ p → s'.released q = s.released q
  task : s'.task = s.task
  visits : s'.visits = s.visits
  tvBase : s'.tvBase = s.tvBase

theorem Touches.refl (s : State P) (p : P) (queue : List (P × List P)) :
    Touches desc s s p queue queue :=
  ⟨⟨rfl, rfl, id, .inl rfl, fun _ => .inr ⟨rfl, rfl⟩⟩, by cases s.started p <;> simp,
    fun _ _ => Iff.rfl, fun _ _ => rfl, fun _ _ => rfl, fun _ _ => rfl, rfl, rfl, rfl⟩

theorem Inv.call (inv : Inv s queue batch dels) (touches : Touches desc s s' p queue queue')
    (queued : Queued s' queue' [batch, dels]) (earliest : s'.earliest = (heads queue').head?)
    (linked : p ∈ members queue' ↔ s'.Active p)
    (deleted : p ∈ dels → (s'.inter p).del = true ∧ (s'.inter p).stop = true)
    (started : s'.started p = true)
    (once : s'.released p ≤ 1)
    (released : s'.released p = 1 ↔ (s'.inter p).del = true ∧ p ∉ batch ∧ p ∉ dels) :
    Inv s' queue' batch dels where
  queued := queued
  earliest := earliest
  task := touches.task ▸ inv.task
  linked q := by
    by_cases here : q = p
    · rwa [here]
    · rw [touches.members q here, inv.linked]
      have same := touches.inter q here
      have same' := touches.started q here
      constructor
      · rintro ⟨a, b, c, d, e⟩
        exact ⟨same' ▸ a, same ▸ b, same ▸ c, same ▸ d, same ▸ e⟩
      · rintro ⟨a, b, c, d, e⟩
        exact ⟨same' ▸ a, same ▸ b, same ▸ c, same ▸ d, same ▸ e⟩
  processing q := by
    by_cases here : q = p
    · rw [here, touches.told.processing, inv.processing]
    · rw [touches.inter q here, inv.processing]
  deleted q member := by
    by_cases here : q = p
    · exact here ▸ deleted (here ▸ member)
    · rw [touches.inter q here]
      exact inv.deleted q member
  begun q member := by
    by_cases here : q = p
    · rw [here, started]
    · rw [touches.started q here]
      exact inv.begun q member
  fresh q unstarted := by
    by_cases here : q = p
    · rw [here, started] at unstarted
      contradiction
    · rw [touches.started q here] at unstarted
      rw [touches.inter q here]
      exact inv.fresh q unstarted
  once q := by
    by_cases here : q = p
    · rwa [here]
    · rw [touches.released q here]
      exact inv.once q
  released q := by
    by_cases here : q = p
    · rw [here, released]
    · rw [touches.inter q here, touches.released q here, inv.released]

/-- A timer that is neither in the round nor deleted. -/
theorem Inv.outside (inv : Inv s queue batch dels) (processing : (s.inter p).processing = false)
    (kept : (s.inter p).del = false) : p ∉ [batch, dels].flatten := by
  have notBatch : p ∉ batch := fun member => by
    rw [(inv.processing p).mpr member] at processing
    contradiction
  have notDels : p ∉ dels := fun member => by
    rw [(inv.deleted p member).1] at kept
    contradiction
  simp [notBatch, notDels]

/-- A started timer that has run out of repeats; nothing in its status says so. -/
def State.Exhausted (s : State P) (p : P) : Prop :=
  s.started p = true ∧ (s.inter p).processing = false ∧ (s.inter p).stop = false ∧
    (s.inter p).del = false ∧ (s.inter p).desc.repeatNum = 0

/-- The invariant gives what timer_leave_avl relies on. -/
theorem Inv.leaves (inv : Inv s queue batch dels) (started : s.started p = true)
    (processing : (s.inter p).processing = false) (kept : (s.inter p).del = false)
    (careful : s.Exhausted p → s.avl.root = none) :
    p ∉ [batch, dels].flatten ∧ (p ∈ members queue → (s.inter p).stop = false) ∧
      (p ∉ members queue → (s.inter p).stop = false → s.avl.root = none) := by
  refine ⟨inv.outside processing kept, fun member => ((inv.linked p).mp member).stop,
    fun notQueued stop => careful ⟨started, processing, stop, kept, ?_⟩⟩
  by_contra repeats
  exact notQueued ((inv.linked p).mpr ⟨started, processing, stop, kept, repeats⟩)

variable [DecidableEq P]

theorem Inv.leftest (inv : Inv s queue batch dels) :
    Returns (fun fuel => avlLeftestNode fuel s.avl.root s.avl) s.earliest := by
  rw [inv.earliest]
  exact inv.queued.indexed.leftest

/-- A timer in no chain that leaves the queue makes the tree empty. -/
theorem timerLeaveAvl_loose (running : (s.inter p).stop = false) (single : s.list p = loose)
    (alone : s.avl.node p = detached) (first : s.earliest ≠ some p) :
    Returns (fun fuel => timerLeaveAvl fuel p s)
      ((s.setStop p).place { s.avl with root := none } s.list s.earliest) := by
  refine (avlDel2_detached alone).imp fun fuel deleted => ?_
  have prev : ((s.setStop p).list p).prev = none := congrArg Link.prev single
  have next : ((s.setStop p).list p).next = none := congrArg Link.next single
  have deleted : avlDel2 fuel p (s.setStop p).avl = _ := deleted
  have first : (s.setStop p).earliest ≠ some p := first
  simp only [timerLeaveAvl, running, Bool.false_eq_true, if_false, prev, if_true, leaveNode, next,
    deleted, Option.bind_eq_bind, Option.bind_some, if_neg first]
  rw [show (s.setStop p).list = s.list from rfl, dlistDel_alone single]
  rfl

/-- A timer leaves the queue if it was there; if it was not, its status says so or the
tree is empty. -/
theorem timerLeaveAvl_cases (queued : Queued s queue others) (first : s.earliest = (heads queue).head?)
    (outside : p ∉ others.flatten) (running : p ∈ members queue → (s.inter p).stop = false)
    (careful : p ∉ members queue → (s.inter p).stop = false → s.avl.root = none) :
    ∃ avl list queue',
      Returns (fun fuel => timerLeaveAvl fuel p s)
        ((s.setStop p).place avl list (heads queue').head?) ∧
      Queued ((s.setStop p).place avl list (heads queue').head?) queue' others ∧
      p ∉ members queue' ∧ ∀ q, q ≠ p → (q ∈ members queue' ↔ q ∈ members queue) := by
  have stopped : Queued (s.setStop p) queue others :=
    queued.congr rfl rfl fun q _ => setStop_id q
  by_cases member : p ∈ members queue
  · obtain ⟨avl, list, queue', run, queued', perm⟩ :=
      timerLeaveAvl_spec queued member (running member) first
    have nodup := perm.nodup_iff.mp queued.members_nodup
    refine ⟨avl, list, queue', run, queued', (List.nodup_cons.mp nodup).1, fun q apart => ?_⟩
    rw [perm.mem_iff, List.mem_cons, or_iff_right apart]
  · refine ⟨s.avl, s.list, queue, ?_, stopped.congr rfl rfl fun _ _ => rfl, member,
      fun _ _ => Iff.rfl⟩
    rw [← first]
    by_cases stop : (s.inter p).stop = true
    · have same : Function.update s.inter p { s.inter p with stop := true } = s.inter := by
        rw [← stop]
        exact Function.update_eq_self ..
      refine Returns.of_eq fun fuel => ?_
      simp only [timerLeaveAvl, if_pos stop, State.place, State.setStop, State.modify, same]
    · have stop := Bool.eq_false_of_not_eq_true stop
      have root := careful member stop
      have empty := queued.indexed.root_none.mp root
      have single := queued.chains.isolated p (by
        rw [List.flatten_append]
        exact fun inside => (List.mem_append.mp inside).elim member outside)
      have notHead : p ∉ heads queue := by simp [empty]
      have left := timerLeaveAvl_loose stop single (queued.indexed.detached p notHead)
        (by rw [first, empty]; exact Option.some_ne_none p |>.symm)
      have same : { s.avl with root := none } = s.avl := by rw [← root]
      rwa [same] at left

/-- A timer that is in no chain joins the queue. -/
theorem timerJoinAvl_cases (queued : Queued s queue others) (first : s.earliest = (heads queue).head?)
    (outside : p ∉ members queue ++ others.flatten) (now : TimeVal) : ∃ avl list queue',
      Returns (fun fuel => timerJoinAvl fuel now p s)
        (((s.clearStop p).setId p (s.nextId now p)).place avl list (heads queue').head?) ∧
      Queued (((s.clearStop p).setId p (s.nextId now p)).place avl list (heads queue').head?)
        queue' others ∧
      p ∈ members queue' ∧ ∀ q, q ≠ p → (q ∈ members queue' ↔ q ∈ members queue) := by
  obtain ⟨avl, list, queue', run, queued', perm⟩ := timerJoinAvl_spec queued outside first now
  refine ⟨avl, list, queue', run, queued', perm.mem_iff.mpr (List.mem_cons_self ..),
    fun q apart => ?_⟩
  rw [perm.mem_iff, List.mem_cons, or_iff_right apart]

/-- The call returns, keeps the invariant, and changes nothing but its timer. -/
def Keeps (run : Nat → Option (State P × Int)) (desc : Option Desc) (s : State P) (p : P)
    (queue : List (P × List P)) (batch dels : List P) : Prop :=
  ∃ s' ret queue', Returns run (s', ret) ∧ Inv s' queue' batch dels ∧
    Touches desc s s' p queue queue'

theorem modify_eq_self {f : Inter → Inter} (same : f (s.inter p) = s.inter p) :
    s.modify p f = s := by
  rw [State.modify, same, Function.update_eq_self]

theorem timerStop_keeps (inv : Inv s queue batch dels) (started : s.started p = true)
    (careful : s.Exhausted p → s.avl.root = none) :
    Keeps (fun fuel => timerStop fuel (some p) s) none s p queue batch dels := by
  by_cases busy : (s.inter p).del = true ∨ (s.inter p).processing = true
  · have read : (s.setStop p).inter p = { s.inter p with stop := true } := by simp [State.setStop]
    have touches : Touches none s (s.setStop p) p queue queue := by
      refine ⟨?_, .inl started, fun _ _ => Iff.rfl, fun _ apart => setStop_inter_of_ne apart, fun _ _ => rfl,
        fun _ _ => rfl, rfl, rfl, rfl⟩
      rw [read]
      exact ⟨rfl, rfl, id, .inl rfl, fun _ => .inl rfl⟩
    refine ⟨s.setStop p, 0, queue, .of_eq fun fuel => ?_, inv.call touches ?_ inv.earliest ?_ ?_
      started (inv.once p) ?_, touches⟩
    · simp only [timerStop, if_pos busy, Option.bind_eq_bind, Option.bind_some]
    · exact inv.queued.congr rfl rfl fun q _ => setStop_id q
    · refine iff_of_false (fun member => ?_) (fun active => ?_)
      · have active := (inv.linked p).mp member
        simp [active.del, active.processing] at busy
      · have stop := active.stop
        rw [read] at stop
        contradiction
    · intro member
      rw [read]
      exact ⟨(inv.deleted p member).1, rfl⟩
    · rw [read]
      exact inv.released p
  · simp only [not_or, Bool.not_eq_true] at busy
    obtain ⟨outside, running, careful⟩ := inv.leaves started busy.2 busy.1 careful
    obtain ⟨avl, list, queue', run, queued, gone, others⟩ :=
      timerLeaveAvl_cases inv.queued inv.earliest outside running careful
    set left := (s.setStop p).place avl list (heads queue').head? with leftEq
    have read : left.inter p = { s.inter p with stop := true } := by simp [leftEq, State.setStop]
    have touches : Touches none s left p queue queue' := by
      refine ⟨?_, .inl started, others, fun _ apart => setStop_inter_of_ne apart, fun _ _ => rfl,
        fun _ _ => rfl, rfl, rfl, rfl⟩
      rw [read]
      exact ⟨rfl, rfl, id, .inl rfl, fun _ => .inl rfl⟩
    refine ⟨left, 0, queue', run.imp fun fuel leaves => ?_, inv.call touches queued rfl ?_ ?_
      started (inv.once p) ?_, touches⟩
    · have again : left.setStop p = left := modify_eq_self (by rw [read])
      simp only [timerStop, busy, Bool.false_eq_true, or_self, if_false, leaves,
        Option.bind_eq_bind, Option.bind_some, again]
    · refine iff_of_false gone fun active => ?_
      have stop := active.stop
      rw [read] at stop
      contradiction
    · intro member
      rw [(inv.deleted p member).1] at busy
      exact absurd busy.1 (by decide)
    · rw [read]
      exact inv.released p

/-- A timer that is in the round or deleted already only gets the bit. -/
theorem setDel_busy (inv : Inv s queue batch dels) (started : s.started p = true)
    (busy : (s.inter p).del = true ∨ (s.inter p).processing = true) :
    Inv (s.setDel p) queue batch dels ∧ Touches none s (s.setDel p) p queue queue := by
  have read : (s.setDel p).inter p = { s.inter p with del := true } := modify_inter_self
  have touches : Touches none s (s.setDel p) p queue queue := by
    refine ⟨?_, .inl started, fun _ _ => Iff.rfl, fun _ apart => modify_inter_of_ne apart, fun _ _ => rfl,
      fun _ _ => rfl, rfl, rfl, rfl⟩
    rw [read]
    exact ⟨rfl, rfl, fun _ => rfl, .inl rfl, fun _ => .inr ⟨rfl, rfl⟩⟩
  refine ⟨inv.call touches ?_ inv.earliest ?_ ?_ started (inv.once p) ?_, touches⟩
  · exact inv.queued.congr rfl rfl fun q _ =>
      modify_id (f := fun i => { i with del := true }) (fun _ => rfl) q
  · refine iff_of_false (fun member => ?_) (fun active => ?_)
    · have active := (inv.linked p).mp member
      simp [active.del, active.processing] at busy
    · have del := active.del
      rw [read] at del
      contradiction
  · intro member
    rw [read]
    exact ⟨rfl, (inv.deleted p member).2⟩
  · have before := inv.released p
    rw [read]
    rcases busy with deleted | processing
    · rwa [deleted] at before
    · exact before.trans (by simp [(inv.processing p).mp processing])

theorem timerDel_keeps (inv : Inv s queue batch dels) (started : s.started p = true)
    (careful : s.Exhausted p → s.avl.root = none) : ∃ s' queue',
      Returns (fun fuel => timerDel fuel (some p) s) s' ∧ Inv s' queue' batch dels ∧
      Touches none s s' p queue queue' ∧ (s'.inter p).del = true := by
  by_cases busy : (s.inter p).del = true ∨ (s.inter p).processing = true
  · obtain ⟨inv', touches⟩ := setDel_busy inv started busy
    exact ⟨s.setDel p, queue, .of_eq fun fuel => by simp only [timerDel, if_pos busy], inv',
      touches, congrArg Inter.del (modify_inter_self : (s.setDel p).inter p = _)⟩
  · simp only [not_or, Bool.not_eq_true] at busy
    obtain ⟨outside, running, careful⟩ := inv.leaves started busy.2 busy.1 careful
    obtain ⟨avl, list, queue', run, queued, gone, others⟩ :=
      timerLeaveAvl_cases inv.queued inv.earliest outside running careful
    have alive : s.released p = 0 := by
      have once := inv.once p
      have before := mt (inv.released p).mp (by simp [busy.1])
      omega
    simp only [List.flatten_cons, List.flatten_nil, List.append_nil, List.mem_append,
      not_or] at outside
    set left := (s.setStop p).place avl list (heads queue').head? with leftEq
    have same : ∀ q, ((left.setDel p).inter q).id = (left.inter q).id := fun q =>
      modify_id (f := fun i => { i with del := true }) (fun _ => rfl) q
    have read : ((left.setDel p).release p).inter p =
        { s.inter p with stop := true, del := true } := by
      simp [leftEq, State.setDel, State.setStop]
    have frame : ∀ q, q ≠ p → ((left.setDel p).release p).inter q = s.inter q := by
      intro q apart
      rw [release_inter, State.setDel, modify_inter_of_ne apart]
      exact setStop_inter_of_ne apart
    have touches : Touches none s ((left.setDel p).release p) p queue queue' := by
      refine ⟨?_, .inl started, others, frame, fun _ _ => rfl, fun _ apart => Function.update_of_ne apart ..,
        rfl, rfl, rfl⟩
      rw [read]
      exact ⟨rfl, rfl, fun _ => rfl, .inl rfl, fun _ => .inl rfl⟩
    have released : ((left.setDel p).release p).released p = 1 := by
      simp [State.release, State.setDel, leftEq, State.setStop, alive]
    refine ⟨_, queue', run.imp fun fuel leaves => ?_, inv.call touches
      (queued.congr rfl rfl fun q _ => same q) rfl ?_ ?_ started ?_ ?_, touches,
      congrArg Inter.del read⟩
    · simp only [timerDel, busy, Bool.false_eq_true, or_self, if_false, leaves,
        Option.bind_eq_bind, Option.bind_some]
    · refine iff_of_false gone fun active => ?_
      have stop := active.stop
      rw [read] at stop
      contradiction
    · exact fun member => absurd member outside.2
    · rw [released]
    · exact iff_of_true released ⟨congrArg Inter.del read, outside⟩

theorem timerRestart_keeps (inv : Inv s queue batch dels) (started : s.started p = true)
    (now : TimeVal) :
    Keeps (fun fuel => timerRestart fuel now (some p) s) none s p queue batch dels := by
  by_cases deleted : (s.inter p).del = true
  · exact ⟨s, -1, queue, .of_eq fun fuel => by simp only [timerRestart, if_pos deleted],
      inv, .refl s p queue⟩
  by_cases again : (s.inter p).stop = true ∧ (s.inter p).desc.repeatNum ≠ 0
  · have kept := Bool.eq_false_of_not_eq_true deleted
    have idle : p ∉ members queue := fun member => by
      rw [((inv.linked p).mp member).stop] at again
      exact Bool.false_ne_true again.1
    by_cases busy : (s.inter p).processing = true
    · have read : (s.clearStop p).inter p = { s.inter p with stop := false } := modify_inter_self
      have touches : Touches none s (s.clearStop p) p queue queue := by
        refine ⟨?_, .inl started, fun _ _ => Iff.rfl, fun _ apart => modify_inter_of_ne apart, fun _ _ => rfl,
          fun _ _ => rfl, rfl, rfl, rfl⟩
        rw [read]
        exact ⟨rfl, rfl, id, .inl rfl, fun none => absurd none again.2⟩
      refine ⟨s.clearStop p, 0, queue, .of_eq fun fuel => ?_, inv.call touches ?_ inv.earliest
        ?_ ?_ started (inv.once p) ?_, touches⟩
      · simp only [timerRestart, if_neg deleted, if_pos again, if_pos busy, Option.bind_eq_bind,
          Option.bind_some]
      · exact inv.queued.congr rfl rfl fun q _ => clearStop_id q
      · refine iff_of_false idle fun active => ?_
        have processing := active.processing
        rw [read] at processing
        exact Bool.noConfusion (busy.symm.trans processing)
      · exact fun member => absurd (inv.deleted p member).1 deleted
      · rw [read]
        exact inv.released p
    · have calm := Bool.eq_false_of_not_eq_true busy
      have outside := inv.outside calm kept
      obtain ⟨avl, list, queue', run, queued, member, others⟩ := timerJoinAvl_cases inv.queued
        inv.earliest (by simpa only [List.mem_append, not_or] using ⟨idle, outside⟩) now
      set joined := ((s.clearStop p).setId p (s.nextId now p)).place avl list (heads queue').head?
        with joinedEq
      have read : joined.inter p = { s.inter p with stop := false, id := s.nextId now p } := by
        simp [joinedEq, State.setId, State.clearStop]
      have touches : Touches none s joined p queue queue' := by
        refine ⟨?_, .inl started, others, fun _ apart => (setId_inter_of_ne apart).trans
          (modify_inter_of_ne apart), fun _ _ => rfl, fun _ _ => rfl, rfl, rfl, rfl⟩
        rw [read]
        exact ⟨rfl, rfl, id, .inl rfl, fun none => absurd none again.2⟩
      refine ⟨joined, 0, queue', run.imp fun fuel joins => ?_, inv.call touches queued rfl ?_ ?_
        started (inv.once p) ?_, touches⟩
      · have same : joined.clearStop p = joined := modify_eq_self (by rw [read])
        simp only [timerRestart, if_neg deleted, if_pos again, if_neg busy, joins,
          Option.bind_eq_bind, Option.bind_some, same]
      · refine iff_of_true member ⟨started, ?_, ?_, ?_, ?_⟩ <;> simp [read, calm, kept, again.2]
      · exact fun inDels => absurd (inv.deleted p inDels).1 deleted
      · rw [read]
        exact inv.released p
  · exact ⟨s, -1, queue, .of_eq fun fuel => by
      simp only [timerRestart, if_neg deleted, if_neg again], inv, .refl s p queue⟩

theorem setDesc_id (s : State P) (desc : Desc) (q : P) :
    ((s.modify p fun i => { i with desc }).inter q).id = (s.inter q).id :=
  modify_id (f := fun i => { i with desc }) (fun _ => rfl) q

theorem timerSet_keeps (inv : Inv s queue batch dels) (started : s.started p = true)
    (now : TimeVal) (desc : Desc)
    (careful : desc.timeUs ≠ 0 → desc.repeatNum ≠ 0 → s.Exhausted p → s.avl.root = none) :
    Keeps (fun fuel => timerSet fuel now (some p) (some desc) s) (some desc) s p
      queue batch dels := by
  by_cases wrong : desc.timeUs = 0 ∨ desc.repeatNum = 0
  · exact ⟨s, -1, queue, .of_eq fun fuel => by simp only [timerSet, if_pos wrong], inv,
      .refl s p queue⟩
  by_cases deleted : (s.inter p).del = true
  · exact ⟨s, -1, queue, .of_eq fun fuel => by
      simp only [timerSet, if_neg wrong, if_pos deleted], inv, .refl s p queue⟩
  have kept := Bool.eq_false_of_not_eq_true deleted
  have valid := not_or.mp wrong
  set described := s.modify p fun i => { i with desc } with describedEq
  have reads : described.inter p = { s.inter p with desc } := modify_inter_self
  have frame : ∀ q, q ≠ p → described.inter q = s.inter q := fun q apart => modify_inter_of_ne apart
  have queued₁ : Queued described queue [batch, dels] :=
    inv.queued.congr rfl rfl fun q _ => setDesc_id s desc q
  by_cases busy : (s.inter p).processing = true
  · have read : (described.clearStop p).inter p = { s.inter p with stop := false, desc } := by
      simp [State.clearStop, reads]
    have touches : Touches (some desc) s (described.clearStop p) p queue queue := by
      refine ⟨?_, .inl started, fun _ _ => Iff.rfl, fun q apart => (modify_inter_of_ne apart).trans
        (frame q apart), fun _ _ => rfl, fun _ _ => rfl, rfl, rfl, rfl⟩
      rw [read]
      exact ⟨rfl, rfl, id, .inr rfl, fun none => absurd none valid.2⟩
    refine ⟨described.clearStop p, 0, queue, .of_eq fun fuel => ?_, inv.call touches ?_ inv.earliest
      ?_ ?_ started (inv.once p) ?_, touches⟩
    · have busy' : (described.inter p).processing = true := by rw [reads]; exact busy
      simp only [timerSet, if_neg wrong, if_neg deleted, ← describedEq, if_pos busy',
        Option.bind_eq_bind, Option.bind_some]
    · exact queued₁.congr rfl rfl fun q _ => clearStop_id q
    · refine iff_of_false (fun member => ?_) fun active => ?_
      · rw [((inv.linked p).mp member).processing] at busy
        contradiction
      · have processing := active.processing
        rw [read] at processing
        exact Bool.noConfusion (busy.symm.trans processing)
    · exact fun member => absurd (inv.deleted p member).1 deleted
    · rw [read]
      exact inv.released p
  · have calm := Bool.eq_false_of_not_eq_true busy
    obtain ⟨outside, running, careful⟩ :=
      inv.leaves started calm kept (careful valid.1 valid.2)
    have stop : (described.inter p).stop = (s.inter p).stop := by rw [reads]
    obtain ⟨avl, list, queue₁, run, queued₂, gone, others⟩ := timerLeaveAvl_cases queued₁
      inv.earliest outside (fun member => stop.trans (running member))
      (fun idle running => careful idle (stop.symm.trans running))
    set left := (described.setStop p).place avl list (heads queue₁).head? with leftEq
    have readsLeft : left.inter p = { s.inter p with stop := true, desc } := by
      simp [leftEq, State.setStop, reads]
    obtain ⟨avl', list', queue', run', queued', member, others'⟩ := timerJoinAvl_cases queued₂ rfl
      (by simpa only [List.mem_append, not_or] using ⟨gone, outside⟩) now
    set joined := ((left.clearStop p).setId p (left.nextId now p)).place avl' list'
      (heads queue').head? with joinedEq
    have read : joined.inter p =
        { s.inter p with stop := false, desc, id := left.nextId now p } := by
      simp [joinedEq, State.setId, State.clearStop, readsLeft]
    have touches : Touches (some desc) s joined p queue queue' := by
      refine ⟨?_, .inl started, fun q apart => (others' q apart).trans (others q apart), fun q apart => ?_,
        fun _ _ => rfl, fun _ _ => rfl, rfl, rfl, rfl⟩
      · rw [read]
        exact ⟨rfl, rfl, id, .inr rfl, fun none => absurd none valid.2⟩
      · refine (setId_inter_of_ne apart).trans ((modify_inter_of_ne apart).trans ?_)
        exact (setStop_inter_of_ne apart).trans (frame q apart)
    refine ⟨joined, 0, queue', run.imp₂ run' fun fuel leaves joins => ?_, inv.call touches queued'
      rfl ?_ ?_ started (inv.once p) ?_, touches⟩
    · have busy' : ¬ (described.inter p).processing = true := by rw [reads]; exact busy
      have same : joined.clearStop p = joined := modify_eq_self (by rw [read])
      simp only [timerSet, if_neg wrong, if_neg deleted, ← describedEq, if_neg busy', leaves, joins,
        Option.bind_eq_bind, Option.bind_some, same]
    · refine iff_of_true member ⟨started, ?_, ?_, ?_, ?_⟩ <;> simp [read, calm, kept, valid.2]
    · exact fun inDels => absurd (inv.deleted p inDels).1 deleted
    · rw [read]
      exact inv.released p

theorem timerNew_keeps (inv : Inv s queue batch dels) (unstarted : s.started p = false)
    (now : TimeVal) (desc : Desc) :
    Keeps (fun fuel => timerNew fuel now (some p) (some desc) s) (some desc) s p
      queue batch dels := by
  by_cases wrong : desc.timeUs = 0
  · exact ⟨s, -1, queue, .of_eq fun fuel => by simp only [timerNew, if_pos wrong], inv,
      .refl s p queue⟩
  obtain ⟨running, kept⟩ := inv.fresh p unstarted
  have notBegun : p ∉ batch ++ dels := fun member => by
    rw [inv.begun p member] at unstarted
    contradiction
  have idle : p ∉ members queue := fun member => by
    rw [((inv.linked p).mp member).started] at unstarted
    contradiction
  rw [List.mem_append, not_or] at notBegun
  have calm : (s.inter p).processing = false :=
    Bool.eq_false_of_not_eq_true (mt (inv.processing p).mp notBegun.1)
  have outside := inv.outside calm kept
  set described := s.modify p fun i => { i with desc } with describedEq
  have reads : described.inter p = { s.inter p with desc } := modify_inter_self
  have frame : ∀ q, q ≠ p → described.inter q = s.inter q := fun q apart => modify_inter_of_ne apart
  have queued₁ : Queued described queue [batch, dels] :=
    inv.queued.congr rfl rfl fun q _ => setDesc_id s desc q
  have begins : ∀ q, q ≠ p → Function.update s.started p true q = s.started q :=
    fun q apart => Function.update_of_ne apart ..
  by_cases repeats : desc.repeatNum = 0
  · have read : (described.setStop p).inter p = { s.inter p with stop := true, desc } := by
      simp [State.setStop, reads]
    have touches : Touches (some desc) s
        { described.setStop p with started := Function.update s.started p true } p queue queue := by
      refine ⟨?_, .inr (.inr fun _ => congrArg Inter.stop read), fun _ _ => Iff.rfl,
        fun q apart => (setStop_inter_of_ne apart).trans (frame q apart), begins,
        fun _ _ => rfl, rfl, rfl, rfl⟩
      change Told _ _ ((described.setStop p).inter p)
      rw [read]
      exact ⟨rfl, rfl, id, .inr rfl, fun _ => .inl rfl⟩
    refine ⟨_, 0, queue, .of_eq fun fuel => ?_, inv.call touches ?_ inv.earliest ?_ ?_
      (Function.update_self ..) (inv.once p) ?_, touches⟩
    · simp only [timerNew, if_neg wrong, repeats, ne_eq, not_true_eq_false, if_false,
        ← describedEq, Option.bind_eq_bind, Option.bind_some]
      rfl
    · exact queued₁.congr rfl rfl fun q _ => setStop_id q
    · refine iff_of_false idle fun active => ?_
      have stop : ((described.setStop p).inter p).stop = false := active.stop
      rw [read] at stop
      contradiction
    · exact fun inDels => absurd inDels notBegun.2
    · change s.released p = 1 ↔ ((described.setStop p).inter p).del = true ∧ _
      rw [read]
      exact inv.released p
  · obtain ⟨avl, list, queue', run, queued, member, others⟩ := timerJoinAvl_cases queued₁
      inv.earliest (by simpa only [List.mem_append, not_or] using ⟨idle, outside⟩) now
    set joined := ((described.clearStop p).setId p (described.nextId now p)).place avl list
      (heads queue').head? with joinedEq
    have read : joined.inter p =
        { s.inter p with stop := false, desc, id := described.nextId now p } := by
      simp [joinedEq, State.setId, State.clearStop, reads]
    have touches : Touches (some desc) s
        { joined with started := Function.update s.started p true } p queue queue' := by
      have again : (joined.inter p).desc.repeatNum ≠ 0 := fun none =>
        repeats ((congrArg (·.desc.repeatNum) read).symm.trans none)
      refine ⟨?_, .inr (.inr fun none => absurd none again), others, fun q apart => ?_, begins,
        fun _ _ => rfl, rfl, rfl, rfl⟩
      · change Told _ _ (joined.inter p)
        rw [read]
        exact ⟨rfl, rfl, id, .inr rfl, fun none => absurd none repeats⟩
      · refine (setId_inter_of_ne apart).trans ((modify_inter_of_ne apart).trans ?_)
        exact frame q apart
    refine ⟨_, 0, queue', run.imp fun fuel joins => ?_, inv.call touches
      (queued.congr rfl rfl fun _ _ => rfl) rfl ?_ ?_ (Function.update_self ..) (inv.once p) ?_,
      touches⟩
    · simp only [timerNew, if_neg wrong, ne_eq, repeats, not_false_eq_true, if_true,
        ← describedEq, joins, Option.bind_eq_bind, Option.bind_some]
      rfl
    · refine iff_of_true member ⟨Function.update_self .., ?_, ?_, ?_, ?_⟩
      · exact (congrArg Inter.processing read).trans calm
      · exact congrArg Inter.stop read
      · exact (congrArg Inter.del read).trans kept
      · exact fun none => repeats ((congrArg (·.desc.repeatNum) read).symm.trans none)
    · exact fun inDels => absurd inDels notBegun.2
    · change s.released p = 1 ↔ (joined.inter p).del = true ∧ _
      rw [read]
      exact inv.released p

end MoonInWater.Timer
