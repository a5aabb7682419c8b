import MoonInWater.Timer.Invariant

/-! The sections of timer_task keep the invariant. -/
namespace MoonInWater.Timer
open Avl Chain DList Fuel
variable {P : Type} {others : List (List P)} {s s' : State P} {queue queue' : List (P × List P)}
  {batch dels : List P} {p q pInter : P} {last : Option P}

/-- The loop between the halves walks along the chain of the round. -/
theorem nextVisit_eq {a b : List P} (linked : Linked s.list none (a ++ b) none)
    (first : (a ++ b).head? = some pInter) : s.nextVisit pInter a.getLast? = b.head? := by
  rcases List.eq_nil_or_concat a with rfl | ⟨a, q, rfl⟩
  · exact first.symm
  · rw [List.concat_eq_append, List.getLast?_concat]
    rw [List.concat_eq_append, List.append_assoc, List.singleton_append] at linked
    exact congrArg Link.next linked.at

theorem Queued.linked_batch (queued : Queued s queue [batch, dels]) : Linked s.list none batch none :=
  queued.chains.linked batch (by simp)

theorem Inv.not_queued (inv : Inv s queue batch dels) (member : p ∈ batch) : p ∉ members queue := by
  intro inQueue
  have processing := ((inv.linked p).mp inQueue).processing
  rw [(inv.processing p).mpr member] at processing
  contradiction

variable [DecidableEq P]

theorem marked_of_mem {inter : P → Inter} (member : p ∈ batch) :
    marked inter batch p = (inter p).mark := if_pos member

theorem marked_of_not_mem {inter : P → Inter} (other : p ∉ batch) :
    marked inter batch p = inter p := if_neg other

theorem firstHalf_inv {c : List P} (inv : Inv s ((p, c) :: queue) [] [])
    (due : ¬ timevalOffsetUs now s.tvBase < (s.inter p).id) :
    ∃ avl s', s' = { (s.place avl s.list (heads queue).head?).withInter (marked s.inter (p :: c))
        with task := .visiting p none } ∧
      Returns (fun fuel => firstHalf fuel now s) s' ∧ Inv s' queue (p :: c) [] := by
  have head : s.earliest = some p := inv.earliest
  obtain ⟨avl, s', same, run, queued⟩ := firstHalf_due inv.queued head due
  have inter : s'.inter = marked s.inter (p :: c) := by rw [same]; rfl
  have started : s'.started = s.started := by rw [same]; rfl
  have released : s'.released = s.released := by rw [same]; rfl
  have whole : members ((p, c) :: queue) = (p :: c) ++ members queue := rfl
  have nodup := whole ▸ inv.queued.members_nodup
  have active : ∀ q ∈ p :: c, s.Active q := fun q member =>
    (inv.linked q).mp (whole ▸ List.mem_append_left _ member)
  have idle : ∀ q, (s.inter q).processing = false := fun q =>
    Bool.eq_false_of_not_eq_true (mt (inv.processing q).mp List.not_mem_nil)
  refine ⟨avl, s', same, run, ?_, ?_, ?_, fun q => ?_, fun q => ?_, ?_, fun q member => ?_,
    fun q unstarted => ?_, fun q => ?_, fun q => ?_⟩
  · exact queued_nil.mp (queued.others_perm (List.Perm.swap ..))
  · rw [same]
    rfl
  · rw [same]
    exact ⟨rfl, rfl, [], p :: c, rfl, rfl⟩
  · by_cases member : q ∈ p :: c
    · refine iff_of_false (fun other => ?_) fun active => ?_
      · exact (List.nodup_append.mp nodup).2.2 q member q other rfl
      · have processing := active.processing
        rw [inter, marked_of_mem member] at processing
        contradiction
    · have old : q ∈ members queue ↔ s.Active q := by
        rw [← inv.linked, whole, List.mem_append, or_iff_right member]
      rw [old]
      constructor
      · rintro ⟨a, b, c, d, e⟩
        have keep : s'.inter q = s.inter q := by rw [inter, marked_of_not_mem member]
        exact ⟨started ▸ a, keep ▸ b, keep ▸ c, keep ▸ d, keep ▸ e⟩
      · rintro ⟨a, b, c, d, e⟩
        have keep : s'.inter q = s.inter q := by rw [inter, marked_of_not_mem member]
        exact ⟨started ▸ a, keep ▸ b, keep ▸ c, keep ▸ d, keep ▸ e⟩
  · by_cases member : q ∈ p :: c
    · rw [inter, marked_of_mem member]
      exact iff_of_true rfl member
    · rw [inter, marked_of_not_mem member, idle]
      exact iff_of_false Bool.false_ne_true member
  · simp
  · rw [started]
    exact (active q (by simpa using member)).started
  · rw [started] at unstarted
    have other : q ∉ p :: c := fun member => by
      rw [(active q member).started] at unstarted
      contradiction
    rw [inter, marked_of_not_mem other]
    exact inv.fresh q unstarted
  · rw [released]
    exact inv.once q
  · rw [released, inv.released, inter]
    by_cases member : q ∈ p :: c
    · simp [(active q member).del, member]
    · rw [marked_of_not_mem member]
      simp [member]

omit [DecidableEq P] in
theorem Inv.progress (inv : Inv s queue batch dels) {task : Task P} (holds : task.Holds batch dels)
    (visits : List (Visit P)) : Inv { s with task, visits } queue batch dels where
  queued := inv.queued.congr rfl rfl fun _ _ => rfl
  earliest := inv.earliest
  task := holds
  linked q := (inv.linked q).trans
    ⟨fun ⟨a, b, c, d, e⟩ => ⟨a, b, c, d, e⟩, fun ⟨a, b, c, d, e⟩ => ⟨a, b, c, d, e⟩⟩
  processing := inv.processing
  deleted := inv.deleted
  begun := inv.begun
  fresh := inv.fresh
  once := inv.once
  released := inv.released

theorem visit_visits (found : Bool) (pInter p : P) (s : State P) :
    (visit found pInter p s).visits = s.visits ++ [⟨p, (s.inter p).prevMarkId, found⟩] := by
  cases found <;> rfl

theorem visit_task (found : Bool) (pInter p : P) (s : State P) :
    (visit found pInter p s).task = .visiting pInter (some p) := by
  cases found <;> rfl

/-- A turn between the halves marks its timer as deleted if the other point is gone. -/
theorem visit_inter (found : Bool) (pInter p q : P) (s : State P) :
    (visit found pInter p s).inter q =
      if q = p ∧ found = false then { s.inter q with del := true } else s.inter q := by
  cases found with
  | true => simp [visit]
  | false =>
    by_cases here : q = p
    · subst here
      simp [visit, State.setDel]
    · simp [visit, State.setDel, modify_inter_of_ne here, here]

theorem visit_inv {a b : List P} (inv : Inv s queue batch []) (found : Bool)
    (walk : batch = a ++ p :: b) (first : batch.head? = some pInter) :
    Inv (visit found pInter p s) queue batch [] := by
  have member : p ∈ batch := by simp [walk]
  have holds : (Task.visiting pInter (some p)).Holds batch [] :=
    ⟨rfl, first, a ++ [p], b, by simp [walk], by simp⟩
  have visited := inv.progress holds (s.visits ++ [⟨p, (s.inter p).prevMarkId, found⟩])
  cases found with
  | true => exact visited
  | false =>
    have started := inv.begun p (List.mem_append_left _ member)
    exact (setDel_busy visited started (.inr ((inv.processing p).mpr member))).1

theorem secondHalf_inv (inv : Inv s queue batch []) (first : batch.head? = some pInter)
    (now : TimeVal) : ∃ s' queue' dels', Returns (fun fuel => secondHalf fuel now pInter s) s' ∧
      Inv s' queue' [] dels' ∧ Rejoined s s' batch queue queue' [] dels' ∧
      s'.visits = s.visits ∧ s'.started = s.started ∧ s'.released = s.released := by
  obtain ⟨avl, list, inter, queue', dels', s', same, run, rejoined⟩ :=
    secondHalf_spec now inv.queued first
  have visits : s'.visits = s.visits := by rw [same]; rfl
  have started : s'.started = s.started := by rw [same]; rfl
  have released : s'.released = s.released := by rw [same]; rfl
  have inDels : ∀ q, q ∈ dels' ↔ q ∈ batch ∧ (s.inter q).del = true := by
    simpa using rejoined.deleted
  have kept : ∀ q, (s'.inter q).del = (s.inter q).del := fun q => by
    by_cases member : q ∈ batch
    · obtain ⟨id, finish⟩ := rejoined.finished q member
      rw [finish]
      rfl
    · rw [rejoined.others q member]
  refine ⟨s', queue', dels', run, ?_, rejoined, visits, started, released⟩
  refine ⟨rejoined.queued, ?_, ?_, fun q => ?_, fun q => ?_, fun q member => ?_, fun q member => ?_,
    fun q unstarted => ?_, fun q => ?_, fun q => ?_⟩
  · rw [same]
    rfl
  · rw [same]
    cases dels' with
    | nil => exact ⟨rfl, rfl⟩
    | cons d dels' => exact ⟨rfl, rfl⟩
  · rw [rejoined.linked]
    by_cases member : q ∈ batch
    · obtain ⟨id, finish⟩ := rejoined.finished q member
      have begun := inv.begun q (by simpa using member)
      rw [or_iff_right (inv.not_queued member), and_iff_right member]
      constructor
      · rintro ⟨del, stop, repeats⟩
        refine ⟨started ▸ begun, ?_, ?_, ?_, ?_⟩ <;> simp [finish, Inter.finish, del, stop, repeats]
      · rintro ⟨_, _, stop, del, repeats⟩
        rw [finish] at stop del repeats
        exact ⟨del, (Bool.or_eq_false_iff.mp stop).1, repeats⟩
    · have other := rejoined.others q member
      rw [or_iff_left fun both => member both.1, inv.linked]
      constructor
      · rintro ⟨a, b, c, d, e⟩
        exact ⟨started ▸ a, other ▸ b, other ▸ c, other ▸ d, other ▸ e⟩
      · rintro ⟨a, b, c, d, e⟩
        exact ⟨started ▸ a, other ▸ b, other ▸ c, other ▸ d, other ▸ e⟩
  · refine iff_of_false (fun processing => ?_) List.not_mem_nil
    by_cases member : q ∈ batch
    · obtain ⟨id, finish⟩ := rejoined.finished q member
      rw [finish] at processing
      contradiction
    · rw [rejoined.others q member, inv.processing] at processing
      exact member processing
  · obtain ⟨inBatch, del⟩ := (inDels q).mp member
    obtain ⟨id, finish⟩ := rejoined.finished q inBatch
    simp [finish, Inter.finish, del]
  · rw [started]
    exact inv.begun q (by simpa using ((inDels q).mp (by simpa using member)).1)
  · rw [started] at unstarted
    have other : q ∉ batch := fun member => by
      rw [inv.begun q (by simpa using member)] at unstarted
      contradiction
    rw [rejoined.others q other]
    exact inv.fresh q unstarted
  · rw [released]
    exact inv.once q
  · rw [released, inv.released, kept, inDels]
    by_cases del : (s.inter q).del = true <;> by_cases member : q ∈ batch <;> simp [del, member]

theorem closeDel_inv {dels : List P} (inv : Inv s queue [] (p :: dels)) :
    Inv (closeDel p s) queue [] dels ∧ (closeDel p s).released p = 1 := by
  have queued := queued_nil.mp inv.queued
  obtain ⟨next, gone⟩ := dlistDel_chains (l := [])
    (queued.chains.perm (List.perm_append_singleton (p :: dels) _))
  have apart : p ∉ dels := by
    have nodup := (List.nodup_append.mp queued.distinct).2.1
    simp only [List.flatten_cons, List.flatten_nil, List.append_nil] at nodup
    exact (List.nodup_cons.mp nodup).1
  have alive : s.released p = 0 := by
    have once := inv.once p
    have before := mt (inv.released p).mp (by simp)
    omega
  have closed : (closeDel p s).released p = 1 := by
    simp [closeDel, State.release, alive]
  have others : ∀ q, q ≠ p → (closeDel p s).released q = s.released q := fun q other =>
    Function.update_of_ne other ..
  have del := (inv.deleted p (List.mem_cons_self ..)).1
  refine ⟨⟨⟨queued.indexed, ?_, queued.sameId⟩, inv.earliest, ?_, fun q => ?_, inv.processing,
    fun q member => ?_, fun q member => ?_, inv.fresh, fun q => ?_, fun q => ?_⟩, closed⟩
  · exact (chains_nil.mpr (gone.perm (List.perm_append_singleton dels _).symm)).perm
      List.perm_middle.symm
  · change (Task.ofDels (dlistDel p s.list).2).Holds [] dels
    rw [next]
    cases dels with
    | nil => exact ⟨rfl, rfl⟩
    | cons d dels => exact ⟨rfl, rfl⟩
  · refine (inv.linked q).trans ?_
    constructor
    all_goals
      rintro ⟨linked, queued, notNow, notDel, open'⟩
      exact ⟨linked, queued, notNow, notDel, open'⟩
  · exact inv.deleted q (List.mem_cons_of_mem _ member)
  · exact inv.begun q (List.mem_cons_of_mem _ member)
  · by_cases here : q = p
    · rw [here, closed]
    · rw [others q here]
      exact inv.once q
  · by_cases here : q = p
    · rw [here]
      exact iff_of_true closed ⟨del, List.not_mem_nil, apart⟩
    · rw [others q here, inv.released, List.mem_cons, or_iff_right here]
      rfl

end MoonInWater.Timer
