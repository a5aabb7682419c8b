import MoonInWater.Timer.Queue

/-! The two halves of a round of the timer thread: the chain of the first node leaves
the queue as a whole, and its timers come back one by one or go to the deleted ones. -/
namespace MoonInWater.Timer
open Avl Chain DList Fuel
variable {P : Type} [DecidableEq P] {s : State P} {queue : List (P × List P)}
  {others : List (List P)} {p q : P}

/-- The state with other data of the timers. -/
def State.withInter (s : State P) (inter : P → Inter) : State P := { s with inter }

def marked (inter : P → Inter) (chain : List P) (q : P) : Inter :=
  if q ∈ chain then (inter q).mark else inter q

theorem marked_cons {inter : P → Inter} {chain : List P} (fresh : p ∉ chain) :
    marked (Function.update inter p (inter p).mark) chain = marked inter (p :: chain) := by
  funext q
  by_cases here : q = p
  · subst here
    simp [marked, fresh]
  · simp [marked, here]

theorem markChain_spec {chain : List P} (linked : Linked s.list before chain none)
    (distinct : chain.Nodup) : Returns (fun fuel => markChain fuel chain.head? s)
      (s.withInter (marked s.inter chain)) := by
  induction chain generalizing s before with
  | nil => exact .succ (fun _ => rfl) (.pure _)
  | cons p chain ih =>
    have link : s.list p = ⟨before, chain.head?⟩ := by rw [linked.1, Option.or_none]
    rw [List.nodup_cons] at distinct
    have rest := ih (s := s.modify p Inter.mark) linked.2 distinct.2
    refine .succ (fun fuel => ?_) (rest.imp fun fuel run => run.trans ?_)
    · rw [List.head?_cons, markChain, link]
    · exact congrArg some (congrArg s.withInter (marked_cons distinct.1))

theorem marked_id {inter : P → Inter} {chain : List P} (q : P) :
    (marked inter chain q).id = (inter q).id := by
  unfold marked
  split_ifs <;> rfl

/-- When the first node is due, its chain leaves the queue and is marked. -/
theorem firstHalf_due {c : List P} (queued : Queued s ((p, c) :: queue) others)
    (first : s.earliest = some p) (due : ¬ timevalOffsetUs now s.tvBase < (s.inter p).id) :
    ∃ avl s', s' = { (s.place avl s.list (heads queue).head?).withInter (marked s.inter (p :: c))
        with task := .visiting p none } ∧
      Returns (fun fuel => firstHalf fuel now s) s' ∧ Queued s' queue ((p :: c) :: others) := by
  obtain ⟨avl, run, indexed⟩ := Indexed.del (l := []) queued.indexed
  have chains : Chains s.list (queue.map chainOf ++ (p :: c) :: others) :=
    queued.chains.perm List.perm_middle.symm
  have linked : Linked s.list none (p :: c) none := chains.linked _ (by simp)
  have distinct := (List.nodup_append.mp queued.chains.distinct).1
  have mark := markChain_spec (s := { s with avl }) linked distinct
  refine ⟨avl, _, rfl, run.imp₃ mark indexed.leftest fun fuel deleted marks found => ?_,
    ⟨indexed.rekey fun q _ => marked_id q, chains, fun x member q inTail => ?_⟩⟩
  · simp only [List.head?_cons, first] at marks
    simp only [firstHalf, first, if_neg due, deleted, marks, Option.bind_eq_bind,
      Option.bind_some, State.leftest]
    change ((avlLeftestNode fuel avl.root avl).map _).bind _ = _
    rw [found]
    rfl
  · have same := queued.sameId x (List.mem_cons_of_mem _ member) q inTail
    exact (marked_id q).trans (same.trans (marked_id x.1).symm)

/-- What a round leaves of a timer of its chain, apart from the id. -/
def Inter.finish (i : Inter) (id : Int) : Inter :=
  { i with processing := false, stop := i.stop || i.del, id }

/-- The timers that a round takes back into the queue. -/
def Inter.Rearmed (i : Inter) : Prop := i.del = false ∧ i.stop = false ∧ i.desc.repeatNum ≠ 0

/-- Each timer of the chain has come back into the queue, has gone to the deleted ones,
or was left alone. -/
structure Rejoined (s s' : State P) (batch : List P) (queue queue' : List (P × List P))
    (dels dels' : List P) : Prop where
  queued : Queued s' queue' [[], dels']
  others : ∀ q ∉ batch, s'.inter q = s.inter q
  finished : ∀ q ∈ batch, ∃ id, s'.inter q = (s.inter q).finish id
  linked : ∀ q, q ∈ members queue' ↔ q ∈ members queue ∨ q ∈ batch ∧ (s.inter q).Rearmed
  deleted : ∀ q, q ∈ dels' ↔ q ∈ dels ∨ q ∈ batch ∧ (s.inter q).del

omit [DecidableEq P] in
theorem Rejoined.cons {s₂ s' : State P} {batch dels dels₂ : List P} {queue₂ : List (P × List P)}
    (rest : Rejoined s₂ s' batch queue₂ queue' dels₂ dels') (id : Int) (fresh : p ∉ batch)
    (self : s₂.inter p = (s.inter p).finish id) (frame : ∀ q, q ≠ p → s₂.inter q = s.inter q)
    (linked : ∀ q, q ∈ members queue₂ ↔ q ∈ members queue ∨ q = p ∧ (s.inter q).Rearmed)
    (deleted : ∀ q, q ∈ dels₂ ↔ q ∈ dels ∨ q = p ∧ (s.inter q).del) :
    Rejoined s s' (p :: batch) queue queue' dels dels' := by
  have inBatch : ∀ q ∈ batch, s₂.inter q = s.inter q := fun q member =>
    frame q fun here => fresh (here ▸ member)
  have rearmed : ∀ q, q ∈ batch ∧ (s₂.inter q).Rearmed ↔ q ∈ batch ∧ (s.inter q).Rearmed :=
    fun q => and_congr_right fun member => by rw [inBatch q member]
  have dels : ∀ q, q ∈ batch ∧ (s₂.inter q).del ↔ q ∈ batch ∧ (s.inter q).del :=
    fun q => and_congr_right fun member => by rw [inBatch q member]
  refine ⟨rest.queued, fun q outside => ?_, fun q member => ?_, fun q => ?_, fun q => ?_⟩
  · rw [List.mem_cons, not_or] at outside
    rw [rest.others q outside.2, frame q outside.1]
  · rcases List.mem_cons.mp member with rfl | member
    · exact ⟨id, (rest.others q fresh).trans self⟩
    · obtain ⟨id, finished⟩ := rest.finished q member
      exact ⟨id, inBatch q member ▸ finished⟩
  · rw [rest.linked, linked, rearmed, List.mem_cons]
    tauto
  · rw [rest.deleted, deleted, dels, List.mem_cons]
    tauto

/-- The state in which the loop of the second half has unlinked `p`. -/
def State.unhook (s : State P) (p : P) : State P :=
  (s.place s.avl (dlistDel p s.list).1 s.earliest).modify p fun i => { i with processing := false }

theorem rejoin_succ (now : TimeVal) (fuel : Nat) (dels : Option P) (s : State P) :
    rejoin now (fuel + 1) (some p) dels s =
      if (s.inter p).del = false ∧ (s.inter p).stop = false ∧ (s.inter p).desc.repeatNum ≠ 0 then
        (addId fuel (s.nextId now p) p (s.unhook p)).bind
          (rejoin now fuel (dlistDel p s.list).2 dels)
      else if (s.inter p).del then rejoin now fuel (dlistDel p s.list).2 (some p)
        (((s.unhook p).setStop p).place s.avl (dlistInsert dels p (s.unhook p).list) s.earliest)
      else rejoin now fuel (dlistDel p s.list).2 dels (s.unhook p) := by
  have read : (s.unhook p).inter p = { s.inter p with processing := false } := modify_inter_self
  have next : (s.unhook p).nextId now p = s.nextId now p := by
    rw [State.nextId, read]
    rfl
  rw [rejoin]
  change (if ((s.unhook p).inter p).del = false ∧ ((s.unhook p).inter p).stop = false ∧
    ((s.unhook p).inter p).desc.repeatNum ≠ 0 then
      (addId fuel ((s.unhook p).nextId now p) p (s.unhook p)).bind
        (rejoin now fuel (dlistDel p s.list).2 dels)
    else if ((s.unhook p).inter p).del then _ else _) = _
  rw [read, next]
  rfl

theorem unhook_queued {batch dels : List P} (queued : Queued s queue [p :: batch, dels]) :
    Queued (s.unhook p) queue [batch, dels] ∧ (dlistDel p s.list).2 = batch.head? ∧
      p ∉ members queue ++ [batch, dels].flatten := by
  have chains : Chains s.list ((p :: batch) :: (queue.map chainOf ++ [dels])) :=
    queued.chains.perm List.perm_middle
  have distinct := chains.distinct
  have again : (batch :: (queue.map chainOf ++ [dels])).Perm (queue.map chainOf ++ [batch, dels]) :=
    List.perm_middle.symm
  rw [List.flatten_cons, List.cons_append, List.nodup_cons] at distinct
  obtain ⟨next, gone⟩ := dlistDel_chains (l := []) chains
  have same : ∀ q, ((s.unhook p).inter q).id = (s.inter q).id := fun q =>
    modify_id (f := fun i => { i with processing := false }) (fun _ => rfl) q
  refine ⟨⟨queued.indexed.rekey fun q _ => same q, gone.perm again, ?_⟩, next, ?_⟩
  · intro x member q inTail
    rw [same, same, queued.sameId x member q inTail]
  · rw [members, ← List.flatten_append, ← again.flatten.mem_iff]
    exact distinct.1

/-- The loop of the second half. -/
theorem rejoin_spec {batch dels : List P} (now : TimeVal) (queued : Queued s queue [batch, dels]) :
    ∃ avl list inter queue' dels',
      Returns (fun fuel => rejoin now fuel batch.head? dels.head? s)
        ((s.place avl list s.earliest).withInter inter, dels'.head?) ∧
      Rejoined s ((s.place avl list s.earliest).withInter inter) batch queue queue' dels dels' := by
  induction batch generalizing s queue dels with
  | nil =>
    refine ⟨s.avl, s.list, s.inter, queue, dels, .succ (fun _ => rfl) (.pure _),
      queued, fun _ _ => rfl, ?_, ?_, ?_⟩
    all_goals simp
  | cons p batch ih =>
    obtain ⟨queued₁, next, fresh⟩ := unhook_queued queued
    have outside : p ∉ batch := fun member => fresh (by simp [member])
    have apart : p ∉ members queue := fun member => fresh (List.mem_append_left _ member)
    have self : (s.unhook p).inter p = { s.inter p with processing := false } := modify_inter_self
    have frame : ∀ q, q ≠ p → (s.unhook p).inter q = s.inter q := fun q apart =>
      modify_inter_of_ne apart
    by_cases rearmed : (s.inter p).Rearmed
    · obtain ⟨avl, list, queue₂, added, queued₂, perm, _⟩ :=
        addId_spec queued₁ fresh (s.nextId now p)
      obtain ⟨avl', list', inter, queue', dels', run, rejoined⟩ := ih queued₂
      refine ⟨avl', list', inter, queue', dels', .succ (rejoin_succ now · _ s) ?_,
        rejoined.cons (s.nextId now p) outside ?_ ?_ ?_ ?_⟩
      · refine added.imp₂ run fun fuel here rest => ?_
        rw [if_pos (show _ ∧ _ ∧ _ from rearmed), here, Option.bind_some, next]
        exact rest
      · change ((s.unhook p).setId p _).inter p = _
        rw [State.setId, modify_inter_self, self, Inter.finish, rearmed.1, rearmed.2.1]
        rfl
      · exact fun q other => (setId_inter_of_ne other).trans (frame q other)
      · intro q
        rw [perm.mem_iff, List.mem_cons]
        constructor
        · rintro (rfl | old)
          · exact .inr ⟨rfl, rearmed⟩
          · exact .inl old
        · rintro (old | ⟨rfl, _⟩)
          · exact .inr old
          · exact .inl rfl
      · intro q
        refine (or_iff_left ?_).symm
        rintro ⟨rfl, deleted⟩
        rw [rearmed.1] at deleted
        contradiction
    · by_cases deleted : (s.inter p).del
      · have split : ∀ dels : List P, (queue.map chainOf ++ [batch, dels]).Perm
            (dels :: (queue.map chainOf ++ [batch])) := fun dels => by
          have last := List.perm_append_singleton dels (queue.map chainOf ++ [batch])
          rwa [List.append_assoc] at last
        have inChains : p ∉ (queue.map chainOf ++ [batch, dels]).flatten := by
          rwa [List.flatten_append]
        have grown := dlistInsert_chains (queued₁.chains.perm (split dels))
          ((split dels).flatten.mem_iff.not.mp inChains)
        have queued₂ : Queued (((s.unhook p).setStop p).place s.avl
            (dlistInsert dels.head? p (s.unhook p).list) s.earliest) queue [batch, p :: dels] := by
          refine ⟨queued₁.indexed.rekey fun q _ => setStop_id q, grown.perm (split _).symm, ?_⟩
          intro x member q inTail
          exact (setStop_id q).trans ((queued₁.sameId x member q inTail).trans
            (setStop_id x.1).symm)
        obtain ⟨avl', list', inter, queue', dels', run, rejoined⟩ := ih queued₂
        refine ⟨avl', list', inter, queue', dels', .succ (rejoin_succ now · _ s) ?_,
          rejoined.cons (s.inter p).id outside ?_ ?_ ?_ ?_⟩
        · refine run.imp fun fuel rest => ?_
          rw [if_neg (show ¬ (_ ∧ _ ∧ _) from rearmed), if_pos deleted, next]
          exact rest
        · change ((s.unhook p).setStop p).inter p = _
          rw [State.setStop, modify_inter_self, self]
          simp [Inter.finish, deleted]
        · exact fun q other => (setStop_inter_of_ne other).trans (frame q other)
        · intro q
          refine (or_iff_left ?_).symm
          rintro ⟨rfl, rearms⟩
          exact rearmed rearms
        · intro q
          rw [List.mem_cons]
          constructor
          · rintro (rfl | old)
            · exact .inr ⟨rfl, deleted⟩
            · exact .inl old
          · rintro (old | ⟨rfl, _⟩)
            · exact .inr old
            · exact .inl rfl
      · obtain ⟨avl', list', inter, queue', dels', run, rejoined⟩ := ih queued₁
        refine ⟨avl', list', inter, queue', dels', .succ (rejoin_succ now · _ s) ?_,
          rejoined.cons (s.inter p).id outside ?_ frame ?_ ?_⟩
        · refine run.imp fun fuel rest => ?_
          rw [if_neg (show ¬ (_ ∧ _ ∧ _) from rearmed), if_neg deleted, next]
          exact rest
        · simp [self, Inter.finish, Bool.eq_false_of_not_eq_true deleted]
        · intro q
          refine (or_iff_left ?_).symm
          rintro ⟨rfl, rearms⟩
          exact rearmed rearms
        · intro q
          refine (or_iff_left ?_).symm
          rintro ⟨rfl, deletes⟩
          exact deleted deletes

/-- The second half leaves the deleted timers to be closed and the queue in order. -/
theorem secondHalf_spec {batch : List P} (now : TimeVal) (queued : Queued s queue [batch, []])
    (head : batch.head? = some p) : ∃ avl list inter queue' dels s',
      s' = { (s.place avl list (heads queue').head?).withInter inter with
        task := .ofDels dels.head? } ∧
      Returns (fun fuel => secondHalf fuel now p s) s' ∧
      Rejoined s s' batch queue queue' [] dels := by
  obtain ⟨avl, list, inter, queue', dels, run, rejoined⟩ := rejoin_spec now queued
  refine ⟨avl, list, inter, queue', dels, _, rfl, ?_, ?_, rejoined.others, rejoined.finished,
    rejoined.linked, rejoined.deleted⟩
  · refine run.imp₂ rejoined.queued.indexed.leftest fun fuel back first => ?_
    have back : rejoin now fuel (some p) none s = _ := head ▸ back
    have first : avlLeftestNode fuel avl.root avl = _ := first
    rw [secondHalf, back]
    change ((avlLeftestNode fuel avl.root avl).map _).bind _ = _
    rw [first]
    rfl
  · exact rejoined.queued.congr rfl rfl fun _ _ => rfl

end MoonInWater.Timer
