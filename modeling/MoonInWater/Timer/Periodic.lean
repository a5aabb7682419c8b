import MoonInWater.Timer.Release
import MoonInWater.Timer.Frame

/-! Timers that are only given endless repeats: none runs out of them, so the status of
each timer says whether it is queued, and each round visits the timers of the smallest id. -/
namespace MoonInWater.Timer
open Avl Chain DList Fuel
variable {P : Type}

/-- No timer is given a positive repeat_num. -/
def Periodic (_ : State P) (e : Event P) : Prop := ∀ desc, e.desc = some desc → desc.repeatNum ≤ 0

instance (s : State P) (e : Event P) : Decidable (Periodic s e) :=
  decidable_of_iff (∀ desc ∈ e.desc, desc.repeatNum ≤ 0) Iff.rfl

/-- The queue in a state, from the pointers in memory and the status of the timers. -/
structure InOrder (s : State P) : Prop where
  linked : ∀ p, InQueue s p ↔ s.started p = true ∧ (s.inter p).stop = false ∧
    (s.inter p).processing = false ∧ (s.inter p).del = false
  chain : ∀ p q, InQueue s p → (s.list p).next = some q → (s.inter q).id = (s.inter p).id
  nodes : ∀ p q, InTree s.avl p → InTree s.avl q → (s.inter p).id = (s.inter q).id → p = q
  earliest : Returns (fun fuel => avlLeftestNode fuel s.avl.root s.avl) s.earliest

variable [DecidableEq P]

/-- An event between the two halves of a round. -/
def Between (s : State P) (e : Event P) : Prop := Periodic s e ∧ ∀ now, e ≠ .secondHalf now

/-- The first half of a round waits if no timer is due. Otherwise the round is for the
chain of the smallest id, which is not above the current time, and up to the second half
its timers are visited one after the other, each once and with the mark that it had. -/
def RoundFrom (s : State P) (now : TimeVal) (s' : State P) : Prop :=
  (s' = s ∧ ∀ p, InQueue s p → timevalOffsetUs now s.tvBase < (s.inter p).id) ∨
  ∃ chain, chain.Nodup ∧ chain ≠ [] ∧
    (∀ p, p ∈ chain ↔ InQueue s p ∧ ∀ q, InQueue s q → (s.inter p).id ≤ (s.inter q).id) ∧
    (∀ p ∈ chain, (s.inter p).id ≤ timevalOffsetUs now s.tvBase) ∧
    ∀ s₁, Runs Between s' s₁ → ∃ done rest turns, chain = done ++ rest ∧
      s₁.visits = s.visits ++ turns ∧
      turns.map (fun turn => (turn.timer, turn.markId)) =
        done.map (fun p => (p, (s.inter p).desc.markId)) ∧
      (∀ turn ∈ turns, turn.timesUp = false → (s₁.inter turn.timer).del = true) ∧
      ∀ fuel later s₂, step fuel (.secondHalf later) s₁ = some s₂ → rest = []

/-- What each state of a run with periodic timers promises. -/
structure PeriodicQueue (s : State P) : Prop where
  inOrder : InOrder s
  rounds : ∀ fuel now s', step fuel (.firstHalf now) s = some s' → RoundFrom s now s'
  /-- Only the turns between the halves call times_up. -/
  visits : ∀ fuel e s', Periodic s e → step fuel e s = some s' → (∀ found, e ≠ .visit found) →
    s'.visits = s.visits

variable {s s' : State P} {queue queue' : List (P × List P)} {batch dels batch' dels' : List P}
  {e : Event P} {p : P}

/-- All timers repeat for ever, or are stopped. -/
structure Endless (s : State P) : Prop where
  repeats : ∀ p, (s.inter p).desc.repeatNum ≤ 0
  stopped : ∀ p, s.started p = true → (s.inter p).desc.repeatNum = 0 → (s.inter p).stop = true

omit [DecidableEq P] in
theorem Endless.careful (endless : Endless s) (e : Event P) : Careful s e := by
  rintro p _ ⟨started, _, running, _, done⟩
  rw [endless.stopped p started done] at running
  contradiction

theorem outcome_endless (inv : Inv s queue batch dels) (endless : Endless s) (periodic : Periodic s e)
    (outcome : Outcome s queue batch dels e s' queue' batch' dels') : Endless s' := by
  cases outcome with
  | null => exact endless
  | wait => exact endless
  | @call p _ _ _ timer touches _ =>
    constructor
    · intro q
      by_cases here : q = p
      · subst here
        rcases touches.told.desc with same | new
        · rw [same]
          exact endless.repeats q
        · exact periodic _ new.symm
      · rw [touches.inter q here]
        exact endless.repeats q
    · intro q started done
      by_cases here : q = p
      · subst here
        rcases touches.told.rests done with stop | ⟨desc, stop⟩
        · exact stop
        · rcases touches.begun with before | unstarted | stops
          · rw [stop]
            exact endless.stopped q before (desc ▸ done)
          · rw [unstarted] at started
            contradiction
          · exact stops done
      · rw [touches.started q here] at started
        rw [touches.inter q here] at done ⊢
        exact endless.stopped q started done
  | begins split _ same =>
    rw [split] at inv
    have desc : ∀ q, (s'.inter q).desc = (s.inter q).desc := fun q => by
      rw [same]
      change (marked s.inter _ q).desc = _
      unfold marked
      split_ifs with member
      · have active := (inv.linked q).mp (List.mem_append_left _ member)
        have negative : ¬ 0 ≤ (s.inter q).desc.repeatNum := fun low =>
          active.repeats (Int.le_antisymm (endless.repeats q) low)
        exact if_neg negative
      · rfl
    have stop : ∀ q, (s'.inter q).stop = (s.inter q).stop := fun q => by
      rw [same]
      change (marked s.inter _ q).stop = _
      unfold marked
      split_ifs <;> rfl
    have started : s'.started = s.started := by rw [same]; rfl
    exact ⟨fun q => desc q ▸ endless.repeats q, fun q begun done => by
      rw [stop]
      exact endless.stopped q (started ▸ begun) (desc q ▸ done)⟩
  | @visits a q b pInter _ found walk _ same =>
    have desc : ∀ z, (s'.inter z).desc = (s.inter z).desc ∧ (s'.inter z).stop = (s.inter z).stop :=
      fun z => by
        rw [same, visit_inter]
        split_ifs <;> exact ⟨rfl, rfl⟩
    have started : s'.started = s.started := by rw [same]; cases found <;> rfl
    exact ⟨fun z => (desc z).1 ▸ endless.repeats z, fun z begun done => by
      rw [(desc z).2]
      exact endless.stopped z (started ▸ begun) ((desc z).1 ▸ done)⟩
  | finishes task rejoined visits begun _ =>
    have finish : ∀ q, (s'.inter q).desc = (s.inter q).desc ∧
        ((s.inter q).stop = true → (s'.inter q).stop = true) := fun q => by
      by_cases member : q ∈ batch
      · obtain ⟨id, finish⟩ := rejoined.finished q member
        rw [finish]
        exact ⟨rfl, fun stop => Bool.or_eq_true_iff.mpr (.inl stop)⟩
      · rw [rejoined.others q member]
        exact ⟨rfl, id⟩
    exact ⟨fun q => (finish q).1 ▸ endless.repeats q, fun q started done =>
      (finish q).2 (endless.stopped q (begun ▸ started) ((finish q).1 ▸ done))⟩
  | closes split same _ =>
    rw [same]
    exact ⟨endless.repeats, endless.stopped⟩

theorem Runs.endless {tvBase : TimeVal} (runs : Runs Periodic (init tvBase) s) :
    Endless s ∧ ∃ queue batch dels, Inv s queue batch dels := by
  induction runs with
  | refl => exact ⟨⟨fun _ => le_rfl, fun _ started => absurd started (by simp [init])⟩,
      [], [], [], inv_init tvBase⟩
  | next _ periodic stepped ih =>
    obtain ⟨endless, queue, batch, dels, inv⟩ := ih
    obtain ⟨queue', batch', dels', inv', outcome⟩ :=
      step_outcome inv (endless.careful _) stepped
    exact ⟨outcome_endless inv endless periodic outcome, queue', batch', dels', inv'⟩

omit [DecidableEq P] in
theorem Inv.inOrder (inv : Inv s queue batch dels) (endless : Endless s)
    (leftest : Returns (fun fuel => avlLeftestNode fuel s.avl.root s.avl) s.earliest) :
    InOrder s where
  linked p := by
    rw [inv.queued.inQueue_iff, inv.linked]
    constructor
    · rintro ⟨started, calm, running, kept, _⟩
      exact ⟨started, running, calm, kept⟩
    · rintro ⟨started, running, calm, kept⟩
      refine ⟨started, calm, running, kept, fun done => ?_⟩
      rw [endless.stopped p started done] at running
      contradiction
  chain p q queued next := by
    obtain ⟨x, inQueue, inChain⟩ := mem_members.mp (inv.queued.inQueue_iff.mp queued)
    have linked := inv.queued.chains.linked (chainOf x)
      (List.mem_append_left _ (List.mem_map_of_mem inQueue))
    rw [inv.queued.chain_id inQueue inChain,
      inv.queued.chain_id inQueue (linked.next_mem inChain next)]
  nodes p q first second same := by
    rw [inv.queued.indexed.inTree_iff] at first second
    exact inv.queued.indexed.injective first second same
  earliest := leftest

/-- The turns so far of a round that began in `s`. -/
structure Turning (s s₁ : State P) (chain : List P) (pInter : P) (done rest : List P)
    (turns : List (Visit P)) : Prop where
  inv : ∃ queue, Inv s₁ queue chain []
  endless : Endless s₁
  split : chain = done ++ rest
  task : s₁.task = .visiting pInter done.getLast?
  visits : s₁.visits = s.visits ++ turns
  marks : ∀ p ∈ chain, (s₁.inter p).prevMarkId = (s.inter p).desc.markId
  order : turns.map (fun turn => (turn.timer, turn.markId)) =
    done.map (fun p => (p, (s.inter p).desc.markId))
  failed : ∀ turn ∈ turns, turn.timesUp = false → (s₁.inter turn.timer).del = true

theorem Turning.step {s₁ s₂ : State P} {chain done rest : List P} {pInter : P}
    {turns : List (Visit P)} (turning : Turning s s₁ chain pInter done rest turns)
    (between : Between s₁ e) (stepped : Timer.step fuel e s₁ = some s₂) :
    ∃ done rest turns, Turning s s₂ chain pInter done rest turns := by
  obtain ⟨⟨queue, inv⟩, endless, split, task, visits, marks, same, failed⟩ := turning
  obtain ⟨queue', batch', dels', inv', outcome⟩ := step_outcome inv (endless.careful e) stepped
  have endless' := outcome_endless inv endless between.1 outcome
  have failed' : ∀ turn ∈ turns, turn.timesUp = false → (s₂.inter turn.timer).del = true :=
    fun turn member missed => outcome_del outcome (failed turn member missed)
  have enabled := enabled_of_step stepped
  cases outcome with
  | null => exact ⟨done, rest, turns, ⟨queue, inv⟩, endless, split, task, visits, marks, same, failed⟩
  | @call p _ _ _ timer touches _ =>
    refine ⟨done, rest, turns, ⟨_, inv'⟩, endless', split, touches.task.trans task,
      touches.visits.trans visits, fun q member => ?_, same, failed'⟩
    by_cases here : q = p
    · subst here
      rw [touches.told.prevMarkId, marks q member]
    · rw [touches.inter q here, marks q member]
  | wait => exact absurd (task.symm.trans enabled) (by simp)
  | begins => exact absurd (task.symm.trans enabled) (by simp)
  | @visits a q b h _ found walk task' same' =>
    have linked := inv.queued.linked_batch
    obtain ⟨rfl, last⟩ : h = pInter ∧ a.getLast? = done.getLast? := by
      have equal := task'.symm.trans task
      simpa using equal
    have holds := inv.task
    rw [task] at holds
    obtain ⟨_, first, _⟩ := holds
    have next : rest.head? = some q := by
      have one := nextVisit_eq (walk ▸ linked) (walk ▸ first)
      have other := nextVisit_eq (split ▸ linked) (split ▸ first)
      rw [← other, ← last, one]
      rfl
    obtain ⟨rest, rfl⟩ : ∃ rest', rest = q :: rest' := ⟨_, (List.cons_head?_tail next).symm⟩
    have member : q ∈ chain := by simp [split]
    have mark : (s₁.inter q).prevMarkId = (s.inter q).desc.markId := marks q member
    have same₂ : ∀ z, (s₂.inter z).prevMarkId = (s₁.inter z).prevMarkId := fun z => by
      rw [same', visit_inter]
      split_ifs <;> rfl
    refine ⟨done ++ [q], rest, turns ++ [⟨q, (s₁.inter q).prevMarkId, found⟩], ⟨_, inv'⟩, endless',
      by simp [split], ?_, ?_, fun z inChain => (same₂ z).trans (marks z inChain), ?_,
      fun turn inTurns missed => ?_⟩
    · rw [same', visit_task, List.getLast?_concat]
    · rw [same', visit_visits, visits, List.append_assoc]
    · rw [List.map_append, List.map_append, same, mark]
      rfl
    · rcases List.mem_append.mp inTurns with earlier | now
      · exact failed' turn earlier missed
      · rw [List.mem_singleton.mp now] at missed ⊢
        rw [same', visit_inter, if_pos ⟨rfl, missed⟩]
  | finishes => exact absurd rfl (between.2 _)
  | closes => contradiction

theorem Turning.runs {s₁ s₂ : State P} {chain : List P} {pInter : P}
    (turning : ∃ done rest turns, Turning s s₁ chain pInter done rest turns)
    (runs : Runs Between s₁ s₂) : ∃ done rest turns, Turning s s₂ chain pInter done rest turns := by
  induction runs with
  | refl => exact turning
  | next _ between stepped ih =>
    obtain ⟨done, rest, turns, turning⟩ := ih
    exact turning.step between stepped

theorem firstHalf_round (inv : Inv s queue batch dels) (endless : Endless s)
    (stepped : step fuel (.firstHalf now) s = some s') : RoundFrom s now s' := by
  obtain ⟨queue', batch', dels', inv', outcome⟩ :=
    step_outcome inv (endless.careful _) stepped
  have endless' := outcome_endless inv endless (fun _ none => by contradiction) outcome
  cases outcome with
  | null call => exact absurd call id
  | call timer => contradiction
  | wait early =>
    refine .inl ⟨rfl, fun q queued => ?_⟩
    have member := inv.queued.inQueue_iff.mp queued
    cases queue with
    | nil => contradiction
    | cons x queue =>
      have least := early x.1 inv.earliest
      rcases inv.queued.head_least member with ⟨_, same⟩ | ⟨_, less⟩
      · rwa [same]
      · exact least.trans less
  | @begins p c _ _ _ _ split due same =>
    subst split
    have chain_ids : ∀ q ∈ p :: c, (s.inter q).id = (s.inter p).id := fun q member =>
      inv.queued.chain_id (x := (p, c)) (List.mem_cons_self ..) member
    have inQueue : ∀ q, InQueue s q ↔ q ∈ p :: c ∨ q ∈ members queue' := fun q => by
      rw [inv.queued.inQueue_iff, ← List.mem_append]
      rfl
    have started : Turning s s' (p :: c) p [] (p :: c) [] := by
      refine ⟨⟨_, inv'⟩, endless', rfl, by rw [same]; rfl, ?_, fun q member => ?_, rfl, by simp⟩
      · rw [same]
        exact (List.append_nil _).symm
      · rw [same]
        exact congrArg Inter.prevMarkId (marked_of_mem member)
    refine .inr ⟨p :: c, (List.nodup_append.mp inv.queued.members_nodup).1, List.cons_ne_nil _ _,
      fun q => ?_, fun q member => ?_, fun s₁ runs => ?_⟩
    · constructor
      · intro member
        refine ⟨(inQueue q).mpr (.inl member), fun z queued => ?_⟩
        rw [chain_ids q member]
        rcases inv.queued.head_least (inv.queued.inQueue_iff.mp queued) with ⟨_, equal⟩ | ⟨_, less⟩
        · rw [equal]
        · exact le_of_lt less
      · rintro ⟨queued, least⟩
        rcases inv.queued.head_least (inv.queued.inQueue_iff.mp queued) with ⟨here, _⟩ | ⟨_, less⟩
        · exact here
        · have first := least p ((inQueue p).mpr (.inl (List.mem_cons_self ..)))
          omega
    · rw [chain_ids q member]
      omega
    · obtain ⟨done, rest, turns, turning⟩ := Turning.runs ⟨_, _, _, started⟩ runs
      refine ⟨done, rest, turns, turning.split, turning.visits, turning.order, turning.failed,
        fun fuel later s₂ second => ?_⟩
      obtain ⟨h, last, task, none⟩ := enabled_of_step second
      obtain ⟨queue₁, inv₁⟩ := turning.inv
      have holds := inv₁.task
      rw [turning.task] at holds task
      obtain ⟨rfl, rfl⟩ : p = h ∧ done.getLast? = last := by simpa using task
      have next := nextVisit_eq (turning.split ▸ inv₁.queued.linked_batch)
        (turning.split ▸ holds.2.1)
      rw [none] at next
      exact List.head?_eq_none_iff.mp next.symm

/-- Every state of a run with periodic timers. -/
theorem runs_periodicQueue {tvBase : TimeVal} (runs : Runs Periodic (init tvBase) s) :
    PeriodicQueue s := by
  obtain ⟨endless, queue, batch, dels, inv⟩ := runs.endless
  refine ⟨inv.inOrder endless inv.leftest, fun fuel now s' stepped =>
    firstHalf_round inv endless stepped, fun fuel e s' periodic stepped notVisit => ?_⟩
  obtain ⟨queue', batch', dels', inv', outcome⟩ := step_outcome inv (endless.careful e) stepped
  cases outcome with
  | null | wait => rfl
  | call _ touches _ => exact touches.visits
  | begins _ _ same | closes _ same _ =>
    rw [same]
    rfl
  | visits => exact absurd rfl (notVisit _)
  | finishes _ _ visits _ _ => exact visits

theorem runs_periodicQueue_inRound : ∃ s : State Nat,
    exec Periodic 9 deletedInRound (init ⟨0, 0⟩) = some s ∧ PeriodicQueue s := by
  have ends : (exec Periodic 9 deletedInRound (init ⟨0, 0⟩)).isSome := by
    with_unfolding_all rfl
  obtain ⟨s, run⟩ := Option.isSome_iff_exists.mp ends
  exact ⟨s, run, runs_periodicQueue (.exec run)⟩

/-- A round for the timer 1, whose pipe has lost its other point. -/
def lostPoint : List (Event Nat) :=
  [.new ⟨0, 0⟩ (some 1) (some ⟨7, -1, 10⟩), .firstHalf ⟨0, 10⟩, .visit false, .secondHalf ⟨0, 10⟩]

/-- The round ends without a call of times_up for the timer of the smallest id. -/
theorem round_without_timesUp : ∃ s s' : State Nat,
    exec Periodic 9 (lostPoint.take 1) (init ⟨0, 0⟩) = some s ∧
    exec Periodic 9 lostPoint (init ⟨0, 0⟩) = some s' ∧ (s.inter 1).id ≤ 10 ∧
    ¬ ∀ p, InQueue s p → (∀ q, InQueue s q → (s.inter p).id ≤ (s.inter q).id) →
      ∃ turn ∈ s'.visits, turn.timer = p ∧ turn.timesUp = true := by
  have begun : (exec Periodic 9 (lostPoint.take 1) (init ⟨0, 0⟩)).map
      (fun s => (s.avl.root, s.avl.node 1, s.list 1, (s.inter 1).id)) =
      some (some 1, detached, loose, 10) := by with_unfolding_all rfl
  have ended : (exec Periodic 9 lostPoint (init ⟨0, 0⟩)).map (·.visits) =
      some [⟨1, 7, false⟩] := by with_unfolding_all rfl
  obtain ⟨s, run, state⟩ := Option.map_eq_some_iff.mp begun
  obtain ⟨s', run', visits⟩ := Option.map_eq_some_iff.mp ended
  simp only [Prod.mk.injEq] at state
  obtain ⟨root, alone, single, id⟩ := state
  refine ⟨s, s', run, run', le_of_eq id, fun all => ?_⟩
  have queued : InQueue s 1 := .node (.root root)
  obtain ⟨turn, member, _, called⟩ := all 1 queued fun q linked => by
    rw [inQueue_lone linked root alone single]
  rw [visits] at member
  rw [List.mem_singleton.mp member] at called
  contradiction

end MoonInWater.Timer
