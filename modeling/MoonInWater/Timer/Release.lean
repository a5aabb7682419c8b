import MoonInWater.Timer.Run

/-! Each deleted timer is released once: by timer_del itself, or by the round that it is
in. -/
namespace MoonInWater.Timer
open Avl Chain DList Fuel
variable {P : Type}

/-- The timers that hang on the pointers of the thread: those of the round, and the
deleted ones that it has yet to close. -/
inductive InRound (s : State P) : P → Prop
  | round : s.task = .visiting pInter last → InRound s pInter
  | deleted : s.task = .closing pInterDels → InRound s pInterDels
  | next : InRound s q → (s.list q).next = some p → InRound s p

variable [DecidableEq P]

/-- What holds of the releases in a state and in all that come after it. -/
structure ReleasedOnce (s : State P) : Prop where
  once : ∀ p, s.released p ≤ 1
  /-- A timer is released as soon as it is deleted and no round has it. -/
  released : ∀ p, s.released p = 1 ↔ (s.inter p).del = true ∧ ¬ InRound s p
  /-- After timer_del, and after the round that had the timer, it is released. -/
  deleted : ∀ fuel p s₁ s₂, Careful s (.del (some p)) → step fuel (.del (some p)) s = some s₁ →
    Runs Careful s₁ s₂ → ¬ InRound s₂ p → s₂.released p = 1
  /-- A released timer is never queued or called again. -/
  last : ∀ p s', s.released p = 1 → Runs Careful s s' → s'.released p = 1 ∧ ¬ InQueue s' p ∧
    s'.visits.filter (·.timer = p) = s.visits.filter (·.timer = p)

variable {s s' : State P} {queue queue' : List (P × List P)} {batch dels batch' dels' : List P}
  {e : Event P} {p : P}

omit [DecidableEq P] in
theorem Inv.inRound_iff (inv : Inv s queue batch dels) : InRound s p ↔ p ∈ batch ∨ p ∈ dels := by
  have inBatch : Linked s.list none batch none := inv.queued.chains.linked batch (by simp)
  have inDels : Linked s.list none dels none := inv.queued.chains.linked dels (by simp)
  constructor
  · intro inRound
    induction inRound with
    | round task =>
      have holds := inv.task
      rw [task] at holds
      exact .inl (List.mem_of_head? holds.2.1)
    | deleted task =>
      have holds := inv.task
      rw [task] at holds
      exact .inr (List.mem_of_head? holds.2)
    | next _ next ih =>
      exact ih.imp (inBatch.next_mem · next) (inDels.next_mem · next)
  · have holds := inv.task
    rintro (member | member)
    · cases task : s.task with
      | idle => simp [(task ▸ holds).1] at member
      | closing d => simp [(task ▸ holds).1] at member
      | visiting h last =>
        rw [task] at holds
        obtain ⟨c, rfl⟩ : ∃ c, batch = h :: c := ⟨_, (List.cons_head?_tail holds.2.1).symm⟩
        exact inBatch.walk (fun _ _ => .next) (.round task) p member
    · cases task : s.task with
      | idle => simp [(task ▸ holds).2] at member
      | visiting h last => simp [(task ▸ holds).1] at member
      | closing d =>
        rw [task] at holds
        obtain ⟨c, rfl⟩ : ∃ c, dels = d :: c := ⟨_, (List.cons_head?_tail holds.2).symm⟩
        exact inDels.walk (fun _ _ => .next) (.deleted task) p member

theorem marked_del {inter : P → Inter} {chain : List P} (p : P) :
    (marked inter chain p).del = (inter p).del := by
  unfold marked
  split_ifs <;> rfl

theorem visit_del (found : Bool) (pInter q : P) (del : (s.inter p).del = true) :
    ((visit found pInter q s).inter p).del = true := by
  rw [visit_inter]
  split_ifs
  · rfl
  · exact del

/-- The mark of a deleted timer stays. -/
theorem outcome_del (outcome : Outcome s queue batch dels e s' queue' batch' dels')
    (del : (s.inter p).del = true) : (s'.inter p).del = true := by
  cases outcome with
  | null => exact del
  | wait => exact del
  | @call q _ _ _ timer touches _ =>
    by_cases here : p = q
    · subst here
      exact touches.told.del del
    · rw [touches.inter p here, del]
  | begins _ _ same =>
    rw [same]
    exact (marked_del p).trans del
  | visits _ _ same =>
    rw [same]
    exact visit_del _ _ _ del
  | finishes _ rejoined _ _ _ =>
    by_cases member : p ∈ batch
    · obtain ⟨id, finish⟩ := rejoined.finished p member
      rw [finish]
      exact del
    · rw [rejoined.others p member, del]
  | closes _ same _ =>
    rw [same]
    exact del

/-- What has been released stays so, and is not called again. -/
theorem outcome_gone (inv : Inv s queue batch dels)
    (outcome : Outcome s queue batch dels e s' queue' batch' dels')
    (gone : (s.inter p).del = true ∧ p ∉ batch ∧ p ∉ dels) :
    ((s'.inter p).del = true ∧ p ∉ batch' ∧ p ∉ dels') ∧
      s'.visits.filter (·.timer = p) = s.visits.filter (·.timer = p) := by
  obtain ⟨del, outside, outside'⟩ := gone
  have deleted := outcome_del outcome del
  cases outcome with
  | null => exact ⟨⟨del, outside, outside'⟩, rfl⟩
  | wait => exact ⟨⟨del, outside, outside'⟩, rfl⟩
  | call timer touches _ => exact ⟨⟨deleted, outside, outside'⟩, by rw [touches.visits]⟩
  | begins split _ same =>
    rw [split] at inv
    refine ⟨⟨deleted, fun member => ?_, List.not_mem_nil⟩, by rw [same]; rfl⟩
    have queued := (inv.linked p).mp (List.mem_append_left _ member)
    rw [queued.del] at del
    contradiction
  | @visits a q b _ _ _ walk _ same =>
    have apart : q ≠ p := fun here => outside (by simp [walk, here])
    refine ⟨⟨deleted, outside, outside'⟩, ?_⟩
    rw [same, visit_visits, List.filter_append]
    simp [apart]
  | finishes task rejoined visits _ _ =>
    refine ⟨⟨deleted, List.not_mem_nil, ?_⟩, by rw [visits]⟩
    rw [rejoined.deleted]
    simp [outside]
  | closes split same _ =>
    rw [split, List.mem_cons, not_or] at outside'
    exact ⟨⟨deleted, outside, outside'.2⟩, by rw [same]; rfl⟩

/-- Runs keep what has been released. -/
theorem runs_gone (inv : Inv s queue batch dels) (runs : Runs Careful s s')
    (gone : (s.inter p).del = true ∧ p ∉ batch ∧ p ∉ dels) : ∃ queue' batch' dels',
      Inv s' queue' batch' dels' ∧ ((s'.inter p).del = true ∧ p ∉ batch' ∧ p ∉ dels') ∧
      s'.visits.filter (·.timer = p) = s.visits.filter (·.timer = p) := by
  induction runs with
  | refl => exact ⟨queue, batch, dels, inv, gone, rfl⟩
  | next _ careful stepped ih =>
    obtain ⟨queue₁, batch₁, dels₁, inv₁, gone₁, visits₁⟩ := ih
    obtain ⟨queue₂, batch₂, dels₂, inv₂, outcome⟩ := step_outcome inv₁ careful stepped
    obtain ⟨gone₂, visits₂⟩ := outcome_gone inv₁ outcome gone₁
    exact ⟨queue₂, batch₂, dels₂, inv₂, gone₂, visits₂.trans visits₁⟩

theorem runs_del (inv : ∃ queue batch dels, Inv s queue batch dels) (runs : Runs Careful s s')
    (del : (s.inter p).del = true) : (s'.inter p).del = true := by
  induction runs with
  | refl => exact del
  | next earlier careful stepped ih =>
    obtain ⟨queue₁, batch₁, dels₁, inv₁⟩ := earlier.inv inv
    obtain ⟨_, _, _, _, outcome⟩ := step_outcome inv₁ careful stepped
    exact outcome_del outcome ih

omit [DecidableEq P] in
theorem Inv.released_iff (inv : Inv s queue batch dels) :
    s.released p = 1 ↔ (s.inter p).del = true ∧ ¬ InRound s p := by
  rw [inv.released, inv.inRound_iff, not_or]

/-- In a run in which no timer that has run out of repeats is set, stopped or deleted
beside others in the tree, every deleted timer is released once, and is gone then. -/
theorem runs_releasedOnce {tvBase : TimeVal} (runs : Runs Careful (init tvBase) s) :
    ReleasedOnce s := by
  obtain ⟨queue, batch, dels, inv⟩ := runs.inv ⟨[], [], [], inv_init tvBase⟩
  refine ⟨inv.once, fun p => inv.released_iff, fun fuel p s₁ s₂ careful stepped later notIn => ?_,
    fun p s' released later => ?_⟩
  · obtain ⟨queue₁, batch₁, dels₁, inv₁, outcome⟩ := step_outcome inv careful stepped
    have del : (s₁.inter p).del = true := by
      cases outcome with
      | null _ none => contradiction
      | call timer _ deleted =>
        obtain rfl : p = _ := Option.some.inj timer
        exact deleted _ rfl
    obtain ⟨queue₂, batch₂, dels₂, inv₂⟩ := later.inv ⟨queue₁, batch₁, dels₁, inv₁⟩
    have kept := runs_del ⟨queue₁, batch₁, dels₁, inv₁⟩ later del
    exact inv₂.released_iff.mpr ⟨kept, notIn⟩
  · obtain ⟨queue', batch', dels', inv', gone, visits⟩ :=
      runs_gone inv later ((inv.released p).mp released)
    refine ⟨(inv'.released p).mpr gone, fun queued => ?_, visits⟩
    have active := (inv'.linked p).mp (inv'.queued.inQueue_iff.mp queued)
    exact Bool.noConfusion (gone.1.symm.trans active.del)

/-- A timer is deleted in the round that it is in. -/
def deletedInRound : List (Event Nat) :=
  [.new ⟨0, 0⟩ (some 1) (some ⟨7, -1, 10⟩), .firstHalf ⟨0, 10⟩, .visit true, .del (some 1),
    .del (some 1), .secondHalf ⟨0, 12⟩, .close]

theorem runs_releasedOnce_inRound : ∃ s : State Nat,
    exec Careful 9 deletedInRound (init ⟨0, 0⟩) = some s ∧ s.released 1 = 1 ∧ ReleasedOnce s := by
  have ends : (exec Careful 9 deletedInRound (init ⟨0, 0⟩)).map (·.released 1) = some 1 := by
    with_unfolding_all rfl
  obtain ⟨s, run, closed⟩ := Option.map_eq_some_iff.mp ends
  exact ⟨s, run, closed, runs_releasedOnce (.exec run)⟩

/-- The timer 9 runs out of repeats and is stopped, which loses the tree of the timers 1,
2 and 3. To stop 2 later puts the tree of 3 in place of that of 4, so that 5 joins the
chain of 3 but becomes the earliest timer. -/
def lostTree : List (Event Nat) :=
  [.new ⟨0, 0⟩ (some 9) (some ⟨0, 1, 5⟩), .new ⟨0, 0⟩ (some 2) (some ⟨0, -1, 20⟩),
    .new ⟨0, 0⟩ (some 1) (some ⟨0, -1, 10⟩), .new ⟨0, 0⟩ (some 3) (some ⟨0, -1, 30⟩),
    .firstHalf ⟨0, 5⟩, .visit true, .secondHalf ⟨0, 5⟩, .stop (some 9), .stop (some 1),
    .new ⟨0, 0⟩ (some 4) (some ⟨0, -1, 50⟩), .stop (some 2),
    .new ⟨0, 0⟩ (some 5) (some ⟨0, -1, 30⟩), .del (some 5), .firstHalf ⟨0, 30⟩, .visit false,
    .secondHalf ⟨0, 30⟩, .close]

/-- The deleted timer 5 is released by timer_del and again by the round. -/
theorem lostTree_releases_twice : ∃ s : State Nat,
    Runs (fun _ _ => True) (init ⟨0, 0⟩) s ∧ s.released 5 = 2 := by
  have ends : (exec (fun _ _ => True) 20 lostTree (init ⟨0, 0⟩)).map (·.released 5) = some 2 := by
    with_unfolding_all rfl
  obtain ⟨s, run, twice⟩ := Option.map_eq_some_iff.mp ends
  exact ⟨s, .exec run, twice⟩

end MoonInWater.Timer
