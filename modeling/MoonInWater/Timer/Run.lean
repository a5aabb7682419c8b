import MoonInWater.Timer.Thread

/-! Runs of calls and sections of the thread, in any order. What a step can do is said
once, by its outcome. -/
namespace MoonInWater.Timer
open Avl Chain DList Fuel
variable {P : Type} [DecidableEq P]

section stable
variable (s : State P) (p : P) (now : TimeVal)

omit [DecidableEq P] in
theorem leftest_stable : Stable fun fuel => s.leftest fuel := (avlLeftestNode_stable _ _).map _

theorem leaveNode_stable : Stable fun fuel => leaveNode fuel p s := by
  unfold leaveNode
  cases (s.list p).next with
  | none => exact (avlDel2_stable p s.avl).bind fun _ => .ite _ (leftest_stable _) (.const _)
  | some next => exact .const _

theorem timerLeaveAvl_stable : Stable fun fuel => timerLeaveAvl fuel p s :=
  .ite _ (.const _) (.ite _ ((leaveNode_stable _ p).bind fun _ => .const _) (.const _))

theorem addId_stable (id : Int) : Stable fun fuel => addId fuel id p s :=
  (avlAdd2_stable p _ _).bind fun _ => .const _

theorem timerJoinAvl_stable : Stable fun fuel => timerJoinAvl fuel now p s :=
  (addId_stable _ p _).bind fun _ => .const _

theorem markChain_stable (chain : Option P) : Stable fun fuel => markChain fuel chain s := by
  refine .of_succ fun n => ?_
  induction n generalizing s chain with
  | zero =>
    intro a result
    contradiction
  | succ n ih =>
    intro a result
    cases chain with
    | none => exact result
    | some p => exact ih _ _ a result

theorem firstHalf_stable : Stable fun fuel => firstHalf fuel now s := by
  unfold firstHalf
  cases s.earliest with
  | none => exact .const _
  | some p =>
    refine .ite _ (.const _) ((avlDel2_stable p s.avl).bind fun _ => ?_)
    exact (markChain_stable _ _).bind fun _ => (leftest_stable _).bind fun _ => .const _

theorem rejoin_stable (chain dels : Option P) :
    Stable fun fuel => rejoin now fuel chain dels s := by
  refine .of_succ fun n => ?_
  induction n generalizing s chain dels with
  | zero =>
    intro a result
    contradiction
  | succ n ih =>
    intro a result
    cases chain with
    | none => exact result
    | some p =>
      rw [rejoin_succ] at result ⊢
      split_ifs at result ⊢
      · obtain ⟨s₁, added, rest⟩ := Option.bind_eq_some_iff.mp result
        exact Option.bind_eq_some_iff.mpr ⟨s₁,
          addId_stable _ p _ n (n + 1) s₁ (Nat.le_succ n) added, ih _ _ _ a rest⟩
      · exact ih _ _ _ a result
      · exact ih _ _ _ a result

theorem secondHalf_stable : Stable fun fuel => secondHalf fuel now p s :=
  (rejoin_stable s now _ _).bind fun _ => (leftest_stable _).bind fun _ => .const _

end stable

/-- The timer that a call is about. -/
def Event.timer : Event P → Option P
  | .new _ pPipe _ | .set _ pPipe _ | .stop pPipe | .restart _ pPipe | .del pPipe => pPipe
  | _ => none

def Event.desc : Event P → Option Desc
  | .new _ _ pDesc | .set _ _ pDesc => pDesc
  | _ => none

theorem step_stable (e : Event P) (s : State P) : Stable fun fuel => step fuel e s := by
  have descs : ∀ (p : P) (desc : Desc) (now : TimeVal),
      Stable (fun fuel => timerNew fuel now (some p) (some desc) s) ∧
      Stable (fun fuel => timerSet fuel now (some p) (some desc) s) := fun p desc now => by
    constructor
    · refine .ite _ (.const _) (.ite _ ?_ (.const _))
      exact (timerJoinAvl_stable _ p now).bind fun _ => .const _
    · refine .ite _ (.const _) (.ite _ (.const _) (.ite _ (.const _) ?_))
      refine (timerLeaveAvl_stable _ p).bind fun _ => ?_
      exact (timerJoinAvl_stable _ p now).bind fun _ => .const _
  cases e with
  | new now pPipe pDesc =>
    refine .ite _ (.map ?_ _) (.const _)
    cases pPipe with
    | none => exact .const _
    | some p => cases pDesc with
      | none => exact .const _
      | some desc => exact (descs p desc now).1
  | set now pPipe pDesc =>
    refine .ite _ (.map ?_ _) (.const _)
    cases pPipe with
    | none => exact .const _
    | some p => cases pDesc with
      | none => exact .const _
      | some desc => exact (descs p desc now).2
  | stop pPipe =>
    refine .ite _ (.map ?_ _) (.const _)
    cases pPipe with
    | none => exact .const _
    | some p =>
      exact .ite _ (.const _) ((timerLeaveAvl_stable s p).bind fun _ => .const _)
  | restart now pPipe =>
    refine .ite _ (.map ?_ _) (.const _)
    cases pPipe with
    | none => exact .const _
    | some p =>
      refine .ite _ (.const _) (.ite _ (.ite _ (.const _) ?_) (.const _))
      exact (timerJoinAvl_stable s p now).bind fun _ => .const _
  | del pPipe =>
    refine .ite _ ?_ (.const _)
    cases pPipe with
    | none => exact .const _
    | some p => exact .ite _ (.const _) ((timerLeaveAvl_stable s p).bind fun _ => .const _)
  | firstHalf now =>
    unfold step
    cases s.task with
    | idle => exact firstHalf_stable s now
    | visiting => exact .const _
    | closing => exact .const _
  | visit found => exact .const _
  | secondHalf now =>
    unfold step
    cases s.task with
    | idle => exact .const _
    | visiting h last => exact .ite _ (secondHalf_stable s h now) (.const _)
    | closing => exact .const _
  | close => exact .const _

/-- The event is a call of the interface. -/
def Event.IsCall : Event P → Prop
  | .firstHalf _ | .visit _ | .secondHalf _ | .close => False
  | _ => True

/-- The timer that a call takes out of the queue before anything else. -/
def Event.leaves : Event P → Option P
  | .set _ pPipe pDesc => pPipe.filter fun _ =>
    pDesc.any fun desc => desc.timeUs ≠ 0 ∧ desc.repeatNum ≠ 0
  | .stop pPipe | .del pPipe => pPipe
  | _ => none

/-- No timer that has run out of repeats is to leave the queue while the tree holds others. -/
def Careful (s : State P) (e : Event P) : Prop :=
  ∀ p, e.leaves = some p → s.Exhausted p → s.avl.root = none

instance (s : State P) (p : P) : Decidable (s.Exhausted p) :=
  inferInstanceAs (Decidable (_ ∧ _ ∧ _ ∧ _ ∧ _))

instance (s : State P) (e : Event P) : Decidable (Careful s e) :=
  decidable_of_iff (∀ p ∈ e.leaves, s.Exhausted p → s.avl.root = none) Iff.rfl

/-- The event can come next. -/
def Event.Enabled (s : State P) : Event P → Prop
  | .new _ pPipe _ => ∀ p, pPipe = some p → s.started p = false
  | .set _ pPipe _ | .stop pPipe | .restart _ pPipe | .del pPipe =>
    ∀ p, pPipe = some p → s.started p = true
  | .firstHalf _ => s.task = .idle
  | .visit _ => ∃ h last p, s.task = .visiting h last ∧ s.nextVisit h last = some p
  | .secondHalf _ => ∃ h last, s.task = .visiting h last ∧ s.nextVisit h last = none
  | .close => ∃ p, s.task = .closing p

/-- What an event does in a state with the given queue, round and deleted timers. -/
inductive Outcome (s : State P) (queue : List (P × List P)) (batch dels : List P) :
    Event P → State P → List (P × List P) → List P → List P → Prop
  | null : e.IsCall → e.timer = none → Outcome s queue batch dels e s queue batch dels
  | call : e.timer = some p → Touches e.desc s s' p queue queue' →
    (∀ pPipe, e = .del pPipe → (s'.inter p).del = true) →
    Outcome s queue batch dels e s' queue' batch dels
  | wait : (∀ p, s.earliest = some p → timevalOffsetUs now s.tvBase < (s.inter p).id) →
    Outcome s queue batch dels (.firstHalf now) s queue batch dels
  | begins : queue = (p, c) :: queue' → ¬ timevalOffsetUs now s.tvBase < (s.inter p).id →
    s' = { (s.place avl s.list (heads queue').head?).withInter (marked s.inter (p :: c))
      with task := .visiting p none } →
    Outcome s queue batch dels (.firstHalf now) s' queue' (p :: c) []
  | visits : batch = a ++ p :: b → s.task = .visiting pInter a.getLast? →
    s' = visit found pInter p s → Outcome s queue batch dels (.visit found) s' queue batch dels
  | finishes : s.task = .visiting pInter batch.getLast? →
    Rejoined s s' batch queue queue' [] dels' →
    s'.visits = s.visits → s'.started = s.started → s'.released = s.released →
    Outcome s queue batch dels (.secondHalf now) s' queue' [] dels'
  | closes : dels = p :: dels' → s' = closeDel p s → s'.released p = 1 →
    Outcome s queue batch dels .close s' queue batch dels'

/-- Runs of events each of which is allowed in the state before it. -/
inductive Runs (allowed : State P → Event P → Prop) (s : State P) : State P → Prop
  | refl : Runs allowed s s
  | next : Runs allowed s s' → allowed s' e → step fuel e s' = some s'' → Runs allowed s s''

/-- The state after the events, each of which has to be allowed. -/
def exec (allowed : State P → Event P → Prop) [∀ s e, Decidable (allowed s e)] (fuel : Nat)
    (events : List (Event P)) (s : State P) : Option (State P) :=
  events.foldlM (fun s e => if allowed s e then step fuel e s else none) s

variable {s s' : State P} {queue queue' : List (P × List P)} {batch dels batch' dels' : List P}
  {e : Event P} {p : P}

theorem enabled_of_step (stepped : step fuel e s = some s') : e.Enabled s := by
  cases e with
  | new now pPipe pDesc =>
    intro p same
    obtain ⟨guard, _⟩ := Option.ite_none_right_eq_some.mp stepped
    simpa [same] using guard
  | set now pPipe pDesc =>
    intro p same
    obtain ⟨guard, _⟩ := Option.ite_none_right_eq_some.mp stepped
    simpa [same] using guard
  | stop pPipe =>
    intro p same
    obtain ⟨guard, _⟩ := Option.ite_none_right_eq_some.mp stepped
    simpa [same] using guard
  | restart now pPipe =>
    intro p same
    obtain ⟨guard, _⟩ := Option.ite_none_right_eq_some.mp stepped
    simpa [same] using guard
  | del pPipe =>
    intro p same
    obtain ⟨guard, _⟩ := Option.ite_none_right_eq_some.mp stepped
    simpa [same] using guard
  | firstHalf now =>
    cases task : s.task with
    | idle => exact task
    | visiting => simp [step, task] at stepped
    | closing => simp [step, task] at stepped
  | visit found =>
    cases task : s.task with
    | idle => simp [step, task] at stepped
    | visiting h last =>
      simp only [step, task, Option.map_eq_some_iff] at stepped
      obtain ⟨p, next, _⟩ := stepped
      exact ⟨h, last, p, task, next⟩
    | closing => simp [step, task] at stepped
  | secondHalf now =>
    cases task : s.task with
    | idle => simp [step, task] at stepped
    | visiting h last =>
      simp only [step, task, Option.ite_none_right_eq_some] at stepped
      exact ⟨h, last, task, stepped.1⟩
    | closing => simp [step, task] at stepped
  | close =>
    cases task : s.task with
    | idle => simp [step, task] at stepped
    | visiting => simp [step, task] at stepped
    | closing p => exact ⟨p, task⟩

/-- A call with a timer does what the function for it does. -/
theorem keeps_outcome {run : Nat → Option (State P × Int)} (keeps : Keeps run e.desc s p queue batch dels)
    (timer : e.timer = some p) (notDel : ∀ pPipe, e ≠ .del pPipe) :
    ∃ s' queue' batch' dels', Returns (fun fuel => (run fuel).map Prod.fst) s' ∧
      Inv s' queue' batch' dels' ∧ Outcome s queue batch dels e s' queue' batch' dels' := by
  obtain ⟨s', ret, queue', returns, inv, touches⟩ := keeps
  refine ⟨s', queue', batch, dels, returns.imp fun fuel run => by rw [run]; rfl, inv, ?_⟩
  exact .call timer touches fun pPipe same => absurd same (notDel pPipe)

/-- An event that can come next returns and keeps the invariant. -/
theorem outcome (inv : Inv s queue batch dels) (careful : Careful s e) (enabled : e.Enabled s) :
    ∃ s' queue' batch' dels', Returns (fun fuel => step fuel e s) s' ∧
      Inv s' queue' batch' dels' ∧ Outcome s queue batch dels e s' queue' batch' dels' := by
  cases e with
  | new now pPipe pDesc =>
    cases pPipe with
    | none => exact ⟨s, queue, batch, dels, .of_eq fun _ => rfl, inv, .null trivial rfl⟩
    | some p =>
      have fresh : s.started p = false := enabled p rfl
      have step : ∀ fuel, step fuel (.new now (some p) pDesc) s =
          (timerNew fuel now (some p) pDesc s).map Prod.fst := fun fuel =>
        if_pos (by simp [fresh])
      cases pDesc with
      | none => exact ⟨s, queue, batch, dels, .of_eq step, inv, .call rfl (.refl s p queue) (by simp)⟩
      | some desc =>
        simp only [step]
        exact keeps_outcome (timerNew_keeps inv fresh now desc) rfl (by simp)
  | set now pPipe pDesc =>
    cases pPipe with
    | none => exact ⟨s, queue, batch, dels, .of_eq fun _ => rfl, inv, .null trivial rfl⟩
    | some p =>
      have started : s.started p = true := enabled p rfl
      have step : ∀ fuel, step fuel (.set now (some p) pDesc) s =
          (timerSet fuel now (some p) pDesc s).map Prod.fst := fun fuel =>
        if_pos (by simp [started])
      cases pDesc with
      | none => exact ⟨s, queue, batch, dels, .of_eq step, inv, .call rfl (.refl s p queue) (by simp)⟩
      | some desc =>
        simp only [step]
        refine keeps_outcome (timerSet_keeps inv started now desc fun time repeats => ?_) rfl
          (by simp)
        exact careful p (by simp [Event.leaves, time, repeats])
  | stop pPipe =>
    cases pPipe with
    | none => exact ⟨s, queue, batch, dels, .of_eq fun _ => rfl, inv, .null trivial rfl⟩
    | some p =>
      have started : s.started p = true := enabled p rfl
      have step : ∀ fuel, step fuel (.stop (some p)) s =
          (timerStop fuel (some p) s).map Prod.fst := fun fuel => if_pos (by simp [started])
      simp only [step]
      exact keeps_outcome (timerStop_keeps inv started (careful p rfl)) rfl (by simp)
  | restart now pPipe =>
    cases pPipe with
    | none => exact ⟨s, queue, batch, dels, .of_eq fun _ => rfl, inv, .null trivial rfl⟩
    | some p =>
      have started : s.started p = true := enabled p rfl
      have step : ∀ fuel, step fuel (.restart now (some p)) s =
          (timerRestart fuel now (some p) s).map Prod.fst := fun fuel => if_pos (by simp [started])
      simp only [step]
      exact keeps_outcome (timerRestart_keeps inv started now) rfl (by simp)
  | del pPipe =>
    cases pPipe with
    | none => exact ⟨s, queue, batch, dels, .of_eq fun _ => rfl, inv, .null trivial rfl⟩
    | some p =>
      have started : s.started p = true := enabled p rfl
      obtain ⟨s', queue', run, inv', touches, deleted⟩ :=
        timerDel_keeps inv started (careful p rfl)
      refine ⟨s', queue', batch, dels, run.imp fun fuel del => ?_, inv',
        .call rfl touches fun _ _ => deleted⟩
      exact (if_pos (by simp [started])).trans del
  | firstHalf now =>
    have idle : s.task = .idle := enabled
    have holds := inv.task
    rw [idle] at holds
    obtain ⟨rfl, rfl⟩ := holds
    have step : ∀ fuel, step fuel (.firstHalf now) s = Timer.firstHalf fuel now s := fun fuel => by
      simp only [step, idle]
    by_cases due : ∀ p, s.earliest = some p → timevalOffsetUs now s.tvBase < (s.inter p).id
    · refine ⟨s, queue, [], [], .of_eq fun fuel => ?_, inv, .wait due⟩
      rw [step, Timer.firstHalf]
      cases first : s.earliest with
      | none => rfl
      | some p => exact if_pos (due p first)
    · cases queue with
      | nil =>
        refine absurd (fun p first => ?_) due
        rw [inv.earliest] at first
        contradiction
      | cons x queue =>
        obtain ⟨p, c⟩ := x
        have first : s.earliest = some p := inv.earliest
        have due' : ¬ timevalOffsetUs now s.tvBase < (s.inter p).id := fun early =>
          due fun q same => Option.some.inj (first.symm.trans same) ▸ early
        obtain ⟨avl, s', same, run, inv'⟩ := firstHalf_inv inv due'
        simp only [step]
        exact ⟨s', queue, p :: c, [], run, inv', .begins rfl due' same⟩
  | visit found =>
    obtain ⟨h, last, p, task, next⟩ := enabled
    have holds := inv.task
    rw [task] at holds
    obtain ⟨rfl, first, a, b, rfl, rfl⟩ := holds
    rw [nextVisit_eq inv.queued.linked_batch first] at next
    obtain ⟨b, rfl⟩ : ∃ b', b = p :: b' := by
      cases b with
      | nil => contradiction
      | cons q b => exact ⟨b, by rw [Option.some.inj next]⟩
    refine ⟨visit found h p s, queue, _, [], .of_eq fun fuel => ?_, visit_inv inv found rfl first,
      .visits rfl task rfl⟩
    simp only [step, task, nextVisit_eq inv.queued.linked_batch first]
    rfl
  | secondHalf now =>
    obtain ⟨h, last, task, next⟩ := enabled
    have holds := inv.task
    rw [task] at holds
    obtain ⟨rfl, first, a, b, rfl, rfl⟩ := holds
    have next' := nextVisit_eq inv.queued.linked_batch first
    rw [next] at next'
    obtain rfl : b = [] := by
      cases b with
      | nil => rfl
      | cons q b => contradiction
    rw [List.append_nil] at *
    obtain ⟨s', queue', dels', run, inv', rejoined, visits, started, released⟩ :=
      secondHalf_inv inv first now
    refine ⟨s', queue', [], dels', run.imp fun fuel second => ?_, inv',
      .finishes task rejoined visits started released⟩
    simp only [step, task, next, if_true]
    exact second
  | close =>
    obtain ⟨p, task⟩ := enabled
    have holds := inv.task
    rw [task] at holds
    obtain ⟨rfl, first⟩ := holds
    obtain ⟨dels, rfl⟩ : ∃ dels', dels = p :: dels' := by
      cases dels with
      | nil => contradiction
      | cons q dels => exact ⟨dels, by rw [Option.some.inj first]⟩
    obtain ⟨inv', closed⟩ := closeDel_inv inv
    refine ⟨closeDel p s, queue, [], dels, .of_eq fun fuel => ?_, inv', .closes rfl rfl closed⟩
    simp only [step, task]

/-- What any step does. -/
theorem step_outcome (inv : Inv s queue batch dels) (careful : Careful s e)
    (stepped : step fuel e s = some s') : ∃ queue' batch' dels',
      Inv s' queue' batch' dels' ∧ Outcome s queue batch dels e s' queue' batch' dels' := by
  obtain ⟨s₁, queue', batch', dels', run, inv', outcome⟩ :=
    outcome inv careful (enabled_of_step stepped)
  obtain rfl := ((step_stable e s).returns stepped).unique run
  exact ⟨queue', batch', dels', inv', outcome⟩

theorem Runs.trans {allowed : State P → Event P → Prop} (first : Runs allowed s s')
    (second : Runs allowed s' s'') : Runs allowed s s'' := by
  induction second with
  | refl => exact first
  | next _ allowed stepped ih => exact .next ih allowed stepped

theorem Runs.mono {allowed allowed' : State P → Event P → Prop} (runs : Runs allowed s s')
    (weaker : ∀ s e, allowed s e → allowed' s e) : Runs allowed' s s' := by
  induction runs with
  | refl => exact .refl
  | next _ allowed stepped ih => exact .next ih (weaker _ _ allowed) stepped

theorem Runs.exec {allowed : State P → Event P → Prop} [∀ s e, Decidable (allowed s e)]
    {events : List (Event P)} (run : exec allowed fuel events s = some s') :
    Runs allowed s s' := by
  induction events generalizing s with
  | nil =>
    cases run
    exact .refl
  | cons e events ih =>
    obtain ⟨s₁, first, rest⟩ := Option.bind_eq_some_iff.mp run
    obtain ⟨may, stepped⟩ := Option.ite_none_right_eq_some.mp first
    have first : Runs allowed s s₁ := .next .refl may stepped
    exact first.trans (ih rest)

/-- A run that ends, before its last event and after it. -/
theorem exec_snoc (allowed : State P → Event P → Prop) [∀ s e, Decidable (allowed s e)]
    (fuel : Nat) (events : List (Event P)) (e : Event P) (s : State P)
    (ends : (exec allowed fuel (events ++ [e]) s).isSome) : ∃ s₁ s₂,
      exec allowed fuel events s = some s₁ ∧ step fuel e s₁ = some s₂ ∧
      exec allowed fuel (events ++ [e]) s = some s₂ := by
  obtain ⟨s₂, whole⟩ := Option.isSome_iff_exists.mp ends
  have run := whole
  rw [exec, List.foldlM_append] at run
  obtain ⟨s₁, first, last⟩ := Option.bind_eq_some_iff.mp run
  obtain ⟨s₃, tried, same⟩ := Option.bind_eq_some_iff.mp last
  obtain ⟨_, stepped⟩ := Option.ite_none_right_eq_some.mp tried
  obtain rfl : s₃ = s₂ := Option.some.inj same
  exact ⟨s₁, s₃, first, stepped, whole⟩

theorem Runs.inv (runs : Runs Careful s s') (inv : ∃ queue batch dels, Inv s queue batch dels) :
    ∃ queue batch dels, Inv s' queue batch dels := by
  induction runs with
  | refl => exact inv
  | next _ careful stepped ih =>
    obtain ⟨queue, batch, dels, inv⟩ := ih
    obtain ⟨queue', batch', dels', inv', _⟩ := step_outcome inv careful stepped
    exact ⟨queue', batch', dels', inv'⟩

end MoonInWater.Timer
