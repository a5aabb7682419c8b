import MoonInWater.Timer.Run

/-! A call on one timer and the others in the queue: they stay, unless the timer has run
out of repeats, when the call empties the tree. -/
namespace MoonInWater.Timer
open Avl Chain DList Fuel
variable {P : Type}

/-- Every other timer of the queue is still there under its id, and the earliest timer is
that of the leftmost node. -/
structure KeepsOthers (timer : Option P) (s s' : State P) : Prop where
  linked : ∀ u, timer ≠ some u → InQueue s u → InQueue s' u ∧ (s'.inter u).id = (s.inter u).id
  earliest : Returns (fun fuel => avlLeftestNode fuel s'.avl.root s'.avl) s'.earliest

variable [DecidableEq P] {s s' : State P} {queue : List (P × List P)} {batch dels : List P}
  {e : Event P} {p u : P}

theorem careful_keepsOthers (inv : Inv s queue batch dels) (call : e.IsCall) (careful : Careful s e)
    (stepped : step fuel e s = some s') : KeepsOthers e.timer s s' := by
  obtain ⟨queue', batch', dels', inv', outcome⟩ := step_outcome inv careful stepped
  refine ⟨fun u other linked => ?_, inv'.leftest⟩
  cases outcome with
  | null => exact ⟨linked, rfl⟩
  | call timer touches _ =>
    have apart : u ≠ _ := fun same => other (timer.trans (congrArg some same.symm))
    rw [inv.queued.inQueue_iff] at linked
    rw [inv'.queued.inQueue_iff, touches.members u apart, touches.inter u apart]
    exact ⟨linked, rfl⟩
  | wait | begins | visits | finishes | closes => exact absurd call id

omit [DecidableEq P] in
theorem inQueue_root (linked : InQueue s u) : s.avl.root ≠ none := by
  induction linked with
  | node inTree =>
    induction inTree with
    | root first => exact fun root => Option.some_ne_none _ (first.symm.trans root)
    | child _ _ _ ih => exact ih
  | chain _ _ ih => exact ih

omit [DecidableEq P] in
/-- A lone node has nothing else beside it in the queue. -/
theorem inQueue_lone (linked : InQueue s u) (root : s.avl.root = some p)
    (alone : s.avl.node p = detached) (single : s.list p = loose) : u = p := by
  induction linked with
  | node inTree =>
    induction inTree with
    | root first => exact (Option.some.inj (root.symm.trans first)).symm
    | child side _ below same =>
      rw [same, alone] at below
      cases side <;> contradiction
  | chain _ next same =>
    rw [same, single] at next
    contradiction

theorem avlAdd2_empty {m : Mem P} (root : m.root = none) (alone : m.node p = detached)
    (cmp : P → Int) : Returns (fun fuel => avlAdd2 fuel p cmp m) ({ m with root := some p }, p) := by
  refine .of_add 1 fun k => ?_
  have up : (m.setSlot .root (some p)).setUp p none = { m with root := some p } := by
    have same : Function.update m.node p { m.node p with parent := none } = m.node := by
      rw [alone, show { (detached : Node P) with parent := none } = m.node p from alone.symm,
        Function.update_eq_self]
    simp only [Mem.setSlot, Mem.setUp, Mem.set, same]
  have descend : addDescend cmp (k + 1) .root none m = some (.inl (.root, none)) := by
    simp only [addDescend, Mem.slot, root]
  have back : addBack (k + 1) p { m with root := some p } = some { m with root := some p } := by
    simp [addBack, alone, detached]
  simp only [avlAdd2, descend, Option.bind_eq_bind, Option.bind_some, up, back]

theorem timerJoinAvl_empty (root : s.avl.root = none) (alone : s.avl.node p = detached)
    (now : TimeVal) : ∃ s', Returns (fun fuel => timerJoinAvl fuel now p s) s' ∧
      s'.avl = { s.avl with root := some p } ∧ s'.list = s.list := by
  have added := avlAdd2_empty root alone
    (timerCmpFunc ((s.clearStop p).setId p (s.nextId now p)).inter (s.nextId now p))
  refine ⟨((s.clearStop p).setId p (s.nextId now p)).place { s.avl with root := some p } s.list
    (earlier ((s.clearStop p).setId p (s.nextId now p)).inter p s.earliest),
    added.imp fun fuel run => ?_, rfl, rfl⟩
  have run : avlAdd2 fuel p _ ((s.clearStop p).setId p (s.nextId now p)).avl = _ := run
  simp only [timerJoinAvl, addId, run, Option.bind_eq_bind, Option.bind_some, ne_eq,
    not_true_eq_false, if_false]
  rfl

/-- A call on a timer that has run out of repeats leaves at most that timer in the tree. -/
theorem exhausted_empties (inv : Inv s queue batch dels) (leaves : e.leaves = some p)
    (exhausted : s.Exhausted p) (stepped : step fuel e s = some s') (linked : InQueue s' u) :
    u = p := by
  obtain ⟨started, calm, running, kept, done⟩ := exhausted
  have idle : p ∉ members queue := fun member => ((inv.linked p).mp member).repeats done
  have notHead : p ∉ heads queue := fun member => idle (heads_subset member)
  have alone := inv.queued.indexed.detached p notHead
  have outside := inv.outside calm kept
  have single : s.list p = loose := inv.queued.chains.isolated p (by
    rw [List.flatten_append]
    exact fun inside => (List.mem_append.mp inside).elim idle outside)
  have first : s.earliest ≠ some p := fun same =>
    notHead (List.mem_of_head? (inv.earliest.symm.trans same))
  have result : ∀ {t}, Returns (fun fuel => step fuel e s) t → s' = t := fun run =>
    ((step_stable e s).returns stepped).unique run
  have guard : (some p).all s.started = true := by simp [started]
  cases e with
  | stop pPipe =>
    obtain rfl : pPipe = some p := leaves
    have run := (timerLeaveAvl_loose running single alone first).imp
      (g := fun fuel => step fuel (.stop (some p)) s) fun fuel left => by
        simp only [step, guard, if_true, timerStop, kept, calm, Bool.false_eq_true, or_self,
          if_false, left, Option.bind_eq_bind, Option.bind_some, Option.map_some]
        rfl
    rw [result run] at linked
    exact absurd rfl (inQueue_root linked)
  | del pPipe =>
    obtain rfl : pPipe = some p := leaves
    have run := (timerLeaveAvl_loose running single alone first).imp
      (g := fun fuel => step fuel (.del (some p)) s) fun fuel left => by
        simp only [step, guard, if_true, timerDel, kept, calm, Bool.false_eq_true, or_self,
          if_false, left, Option.bind_eq_bind, Option.bind_some]
        rfl
    rw [result run] at linked
    exact absurd rfl (inQueue_root linked)
  | set now pPipe pDesc =>
    obtain ⟨rfl, valid⟩ := Option.filter_eq_some_iff.mp leaves
    obtain ⟨desc, rfl, holds⟩ := (Option.any_eq_true _ _).mp valid
    have valid : ¬ (desc.timeUs = 0 ∨ desc.repeatNum = 0) := by simpa using holds
    set described := s.modify p fun i => { i with desc } with describedEq
    have reads : described.inter p = { s.inter p with desc } := modify_inter_self
    have running' : (described.inter p).stop = false := by rw [reads]; exact running
    have calm' : (described.inter p).processing = false := by rw [reads]; exact calm
    have left := timerLeaveAvl_loose running' single alone first
    obtain ⟨joined, join, avl, list⟩ := timerJoinAvl_empty (p := p)
      (s := (described.setStop p).place { s.avl with root := none } s.list s.earliest)
      rfl alone now
    have run := left.imp₂ join
      (h := fun fuel => step fuel (.set now (some p) (some desc)) s) (c := joined.clearStop p)
      fun fuel leaves joins => by
        have leaves : timerLeaveAvl fuel p described = some ((described.setStop p).place
          { s.avl with root := none } s.list s.earliest) := leaves
        simp only [step, guard, if_true, timerSet, if_neg valid, kept, Bool.false_eq_true, if_false,
          ← describedEq, calm', leaves, joins, Option.bind_eq_bind, Option.bind_some,
          Option.map_some]
    rw [result run] at linked
    refine inQueue_lone linked (congrArg Mem.root avl) ?_ ?_
    · exact (congrArg (Mem.node · p) avl).trans alone
    · exact (congrFun list p).trans single
  | new | restart | firstHalf | visit | secondHalf | close => contradiction

/-- After a run in which no timer that has run out of repeats has been set, stopped or
deleted beside others in the tree, a call keeps the other timers exactly when it is not
such a call itself. -/
theorem call_keepsOthers {tvBase : TimeVal} (runs : Runs Careful (init tvBase) s)
    (call : e.IsCall) (stepped : step fuel e s = some s') :
    KeepsOthers e.timer s s' ↔ Careful s e := by
  obtain ⟨queue, batch, dels, inv⟩ := runs.inv ⟨[], [], [], inv_init tvBase⟩
  constructor
  · intro keeps p leaves exhausted
    by_contra root
    obtain ⟨u, root⟩ := Option.ne_none_iff_exists'.mp root
    have linked : InQueue s u := .node (.root root)
    have timer : e.timer = some p := by
      cases e with
      | stop | del => exact leaves
      | set now pPipe pDesc => exact (Option.filter_eq_some_iff.mp leaves).1
      | new | restart | firstHalf | visit | secondHalf | close => contradiction
    by_cases same : u = p
    · subst same
      exact ((inv.linked u).mp (inv.queued.inQueue_iff.mp linked)).repeats exhausted.2.2.2.2
    · have other : e.timer ≠ some u := fun equal =>
        same (Option.some.inj (equal.symm.trans timer))
      exact same (exhausted_empties inv leaves exhausted stepped (keeps.linked u other linked).1)
  · exact fun careful => careful_keepsOthers inv call careful stepped

/-- Two timers that are both queued. -/
def twoTimers : List (Event Nat) :=
  [.new ⟨0, 0⟩ (some 1) (some ⟨7, -1, 10⟩), .new ⟨0, 0⟩ (some 2) (some ⟨8, 3, 20⟩)]

theorem call_keepsOthers_stop : ∃ s s' : State Nat,
    exec Careful 9 twoTimers (init ⟨0, 0⟩) = some s ∧ step 9 (.stop (some 1)) s = some s' ∧
    (KeepsOthers (some 1) s s' ↔ Careful s (.stop (some 1))) := by
  obtain ⟨s, s', run, stepped, _⟩ := exec_snoc Careful 9 twoTimers (.stop (some 1))
    (init ⟨0, 0⟩) (by with_unfolding_all rfl)
  exact ⟨s, s', run, stepped, call_keepsOthers (e := .stop (some 1)) (.exec run) trivial stepped⟩

/-- The timer 1 runs out of repeats in a round beside the timer 2. -/
def lastRepeat : List (Event Nat) :=
  [.new ⟨0, 0⟩ (some 1) (some ⟨7, 1, 10⟩), .new ⟨0, 0⟩ (some 2) (some ⟨8, -1, 20⟩),
    .firstHalf ⟨0, 10⟩, .visit true, .secondHalf ⟨0, 10⟩]

/-- To stop the timer 1 then takes the timer 2 out of the queue. -/
theorem stop_drops_other : ∃ s s' : State Nat, Runs (fun _ _ => True) (init ⟨0, 0⟩) s ∧
    step 9 (.stop (some 1)) s = some s' ∧ ¬ KeepsOthers (some 1) s s' := by
  obtain ⟨s, s', run, stepped, whole⟩ := exec_snoc (fun _ _ => True) 9 lastRepeat (.stop (some 1))
    (init ⟨0, 0⟩) (by with_unfolding_all rfl)
  have before : (exec (fun _ _ => True) 9 lastRepeat (init ⟨0, 0⟩)).map (·.avl.root) =
      some (some 2) := by with_unfolding_all rfl
  have after : (exec (fun _ _ => True) 9 (lastRepeat ++ [.stop (some 1)]) (init ⟨0, 0⟩)).map
      (·.avl.root) = some none := by with_unfolding_all rfl
  rw [run] at before
  rw [whole] at after
  refine ⟨s, s', .exec run, stepped, fun keeps => ?_⟩
  have queued : InQueue s 2 := .node (.root (Option.some.inj before))
  exact inQueue_root (keeps.linked 2 (by decide) queued).1 (Option.some.inj after)

end MoonInWater.Timer
