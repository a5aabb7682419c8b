import MoonInWater.Timer.Model
import MoonInWater.Avl.Indexed
import MoonInWater.Avl.Stable

/-! The queue of timers in memory: a sequence of tree nodes, each with the chain of the
other timers of its id. What joining and leaving do to it. -/
namespace MoonInWater.Timer
open Avl Chain DList Fuel
variable {P : Type} {s : State P} {queue : List (P × List P)} {others : List (List P)}

/-- The timers that are linked in the tree or in the chain of one of its nodes. -/
inductive InQueue (s : State P) : P → Prop
  | node : InTree s.avl p → InQueue s p
  | chain : InQueue s q → (s.list q).next = some p → InQueue s p

def chainOf (x : P × List P) : List P := x.1 :: x.2

def members (queue : List (P × List P)) : List P := (queue.map chainOf).flatten

def heads (queue : List (P × List P)) : List P := queue.map Prod.fst

/-- The heap holds the queue; `others` are further chains beside it. -/
structure Queued (s : State P) (queue : List (P × List P)) (others : List (List P)) : Prop where
  indexed : Indexed (fun p => (s.inter p).id) s.avl (heads queue)
  chains : Chains s.list (queue.map chainOf ++ others)
  sameId : ∀ x ∈ queue, ∀ p ∈ x.2, (s.inter p).id = (s.inter x.1).id

theorem heads_subset (member : p ∈ heads queue) : p ∈ members queue := by
  obtain ⟨x, inQueue, rfl⟩ := List.mem_map.mp member
  exact List.mem_flatten_of_mem (List.mem_map_of_mem inQueue) (List.mem_cons_self ..)

theorem mem_members : p ∈ members queue ↔ ∃ x ∈ queue, p ∈ chainOf x := by
  simp [members]

theorem members_split (a b : List (P × List P)) (x : P × List P) :
    (members (a ++ x :: b)).Perm (chainOf x ++ members (a ++ b)) := by
  have perm : (a ++ x :: b).Perm (x :: (a ++ b)) := List.perm_middle
  exact (perm.map chainOf).flatten

theorem chains_split (a b : List (P × List P)) (x : P × List P) (others : List (List P)) :
    ((a ++ x :: b).map chainOf ++ others).Perm
      (chainOf x :: ((a ++ b).map chainOf ++ others)) := by
  have perm : (a ++ x :: b).Perm (x :: (a ++ b)) := List.perm_middle
  exact (perm.map chainOf).append_right others

theorem Queued.chain_id (queued : Queued s queue others) (member : x ∈ queue)
    (inChain : p ∈ chainOf x) : (s.inter p).id = (s.inter x.1).id := by
  rcases List.mem_cons.mp inChain with rfl | inTail
  · rfl
  · exact queued.sameId x member p inTail

/-- The first node has the smallest id, and only its chain has it. -/
theorem Queued.head_least (queued : Queued s ((p, c) :: queue) others)
    (member : q ∈ members ((p, c) :: queue)) :
    q ∈ p :: c ∧ (s.inter q).id = (s.inter p).id ∨
      q ∉ p :: c ∧ (s.inter p).id < (s.inter q).id := by
  obtain ⟨x, inQueue, inChain⟩ := mem_members.mp member
  rcases List.mem_cons.mp inQueue with rfl | later
  · exact .inl ⟨inChain, queued.chain_id inQueue inChain⟩
  · have less := (List.pairwise_cons.mp queued.indexed.ordered).1 x.1 (List.mem_map_of_mem later)
    rw [← queued.chain_id inQueue inChain] at less
    refine .inr ⟨fun first => ?_, less⟩
    have same := queued.chain_id (x := (p, c)) (List.mem_cons_self ..) first
    exact absurd less (same ▸ lt_irrefl _)

theorem Queued.distinct (queued : Queued s queue others) :
    (members queue ++ others.flatten).Nodup := by
  have distinct := queued.chains.distinct
  rwa [List.flatten_append] at distinct

theorem Queued.members_nodup (queued : Queued s queue others) : (members queue).Nodup :=
  (List.nodup_append.mp queued.distinct).1

/-- The timers behind a tree node are not tree nodes. -/
theorem Queued.tail_not_head (queued : Queued s (a ++ x :: b) others) (member : p ∈ x.2) :
    p ∉ heads (a ++ x :: b) := by
  have nodup := (members_split a b x).nodup_iff.mp queued.members_nodup
  obtain ⟨inChain, _, apart⟩ := List.nodup_append.mp nodup
  intro head
  simp only [heads, List.map_append, List.map_cons, List.mem_append, List.mem_cons] at head
  have elsewhere : p ∉ heads (a ++ b) := fun other =>
    apart p (List.mem_cons_of_mem _ member) p (heads_subset other) rfl
  simp only [heads, List.map_append, List.mem_append, not_or] at elsewhere
  rcases head with inA | rfl | inB
  · exact elsewhere.1 inA
  · exact (List.nodup_cons.mp inChain).1 member
  · exact elsewhere.2 inB

theorem Queued.sameId_middle (queued : Queued s (a ++ x :: b) others)
    (middle : ∀ p ∈ y.2, (s.inter p).id = (s.inter y.1).id) :
    ∀ x ∈ a ++ y :: b, ∀ p ∈ x.2, (s.inter p).id = (s.inter x.1).id := by
  intro z member
  rcases List.mem_append.mp member with inA | inB
  · exact queued.sameId z (List.mem_append_left _ inA)
  · rcases List.mem_cons.mp inB with rfl | inB
    · exact middle
    · exact queued.sameId z (List.mem_append_right _ (List.mem_cons_of_mem _ inB))

/-- The queue depends on the ids of its timers only. -/
theorem Queued.congr {s' : State P} (queued : Queued s queue others) (avl : s'.avl = s.avl)
    (list : s'.list = s.list) (ids : ∀ p ∈ members queue, (s'.inter p).id = (s.inter p).id) :
    Queued s' queue others where
  indexed := avl ▸ queued.indexed.rekey fun p member => ids p (heads_subset member)
  chains := list ▸ queued.chains
  sameId x member p inTail := by
    rw [ids p (mem_members.mpr ⟨x, member, List.mem_cons_of_mem _ inTail⟩),
      ids x.1 (mem_members.mpr ⟨x, member, List.mem_cons_self ..⟩)]
    exact queued.sameId x member p inTail

theorem Queued.others_perm (queued : Queued s queue others) (perm : others.Perm others') :
    Queued s queue others' :=
  ⟨queued.indexed, queued.chains.perm (perm.append_left _), queued.sameId⟩

theorem queued_nil : Queued s queue ([] :: others) ↔ Queued s queue others := by
  constructor
  · intro queued
    exact ⟨queued.indexed, chains_nil.mp (queued.chains.perm List.perm_middle), queued.sameId⟩
  · intro queued
    exact ⟨queued.indexed, (chains_nil.mpr queued.chains).perm List.perm_middle.symm, queued.sameId⟩

/-- The state with another queue. -/
def State.place (s : State P) (avl : Mem P) (list : P → Link P) (earliest : Option P) : State P :=
  { s with avl, list, earliest }

variable [DecidableEq P] {p q : P} {f : Inter → Inter}

@[simp] theorem modify_inter_self : (s.modify p f).inter p = f (s.inter p) := Function.update_self ..

theorem modify_inter_of_ne (apart : q ≠ p) : (s.modify p f).inter q = s.inter q :=
  Function.update_of_ne apart ..

section fields
variable (s : State P) (p : P) (f : Inter → Inter) (avl : Mem P) (list : P → Link P)
  (earliest : Option P)

@[simp] theorem modify_started : (s.modify p f).started = s.started := rfl
@[simp] theorem modify_released : (s.modify p f).released = s.released := rfl
@[simp] theorem modify_task : (s.modify p f).task = s.task := rfl
@[simp] theorem modify_visits : (s.modify p f).visits = s.visits := rfl
@[simp] theorem modify_tvBase : (s.modify p f).tvBase = s.tvBase := rfl
@[simp] theorem modify_earliest : (s.modify p f).earliest = s.earliest := rfl

@[simp] theorem release_inter : (s.release p).inter = s.inter := rfl

omit [DecidableEq P]
@[simp] theorem place_inter : (s.place avl list earliest).inter = s.inter := rfl
@[simp] theorem place_started : (s.place avl list earliest).started = s.started := rfl
@[simp] theorem place_released : (s.place avl list earliest).released = s.released := rfl
@[simp] theorem place_task : (s.place avl list earliest).task = s.task := rfl
@[simp] theorem place_visits : (s.place avl list earliest).visits = s.visits := rfl
@[simp] theorem place_tvBase : (s.place avl list earliest).tvBase = s.tvBase := rfl
@[simp] theorem place_earliest : (s.place avl list earliest).earliest = earliest := rfl

end fields

theorem modify_id (same : ∀ i, (f i).id = i.id) (q : P) :
    ((s.modify p f).inter q).id = (s.inter q).id := by
  by_cases here : q = p
  · rw [here, modify_inter_self, same]
  · rw [modify_inter_of_ne here]

@[simp] theorem setStop_id (q : P) : ((s.setStop p).inter q).id = (s.inter q).id :=
  modify_id (f := fun i => { i with stop := true }) (fun _ => rfl) q

@[simp] theorem clearStop_id (q : P) : ((s.clearStop p).inter q).id = (s.inter q).id :=
  modify_id (f := fun i => { i with stop := false }) (fun _ => rfl) q

@[simp] theorem setId_id {id : Int} : ((s.setId p id).inter p).id = id := by
  rw [State.setId, modify_inter_self]

theorem setId_inter_of_ne {id : Int} (apart : q ≠ p) : (s.setId p id).inter q = s.inter q :=
  modify_inter_of_ne apart

theorem setStop_inter_of_ne (apart : q ≠ p) : (s.setStop p).inter q = s.inter q :=
  modify_inter_of_ne apart

omit [DecidableEq P] in
theorem timerCmpFunc_compares (inter : P → Inter) (id : Int) :
    Compares (timerCmpFunc inter id) (fun p => (inter p).id) id := by
  intro p
  change (timerCmpFunc inter id p < 0 ↔ (inter p).id < id) ∧
    (0 < timerCmpFunc inter id p ↔ id < (inter p).id)
  unfold timerCmpFunc
  split_ifs <;> constructor <;> omega

omit [DecidableEq P] in
/-- The first of an ordered sequence of nodes in which `p` has been put. -/
theorem head_added {inter : P → Inter} {a b : List P}
    (ordered : (a ++ p :: b).Pairwise fun x y => (inter x).id < (inter y).id) :
    (a ++ p :: b).head? = earlier inter p (a ++ b).head? := by
  cases a with
  | nil =>
    cases b with
    | nil => rfl
    | cons y b => exact (if_pos ((List.pairwise_cons.mp ordered).1 y (List.mem_cons_self ..))).symm
  | cons x a =>
    have less := (List.pairwise_cons.mp ordered).1 p (List.mem_append_right _ (by simp))
    exact (if_neg (by omega)).symm

omit [DecidableEq P] in
/-- The first of an ordered sequence stays the earliest beside a timer of an id in it. -/
theorem head_kept {inter : P → Inter} {a b : List P} (same : (inter q).id = (inter p).id)
    (ordered : (a ++ q :: b).Pairwise fun x y => (inter x).id < (inter y).id) :
    (a ++ q :: b).head? = earlier inter p (a ++ q :: b).head? := by
  cases a with
  | nil => exact (if_neg (by omega)).symm
  | cons x a =>
    have less := (List.pairwise_cons.mp ordered).1 q (List.mem_append_right _ (by simp))
    exact (if_neg (by omega)).symm

/-- A timer that is in no chain is taken into the queue, as a node or behind the node
that has its id. -/
theorem addId_spec (queued : Queued s queue others) (fresh : p ∉ members queue ++ others.flatten)
    (id : Int) : ∃ avl list queue',
      Returns (fun fuel => addId fuel id p s) ((s.setId p id).place avl list s.earliest) ∧
      Queued ((s.setId p id).place avl list s.earliest) queue' others ∧
      (members queue').Perm (p :: members queue) ∧
      (heads queue').head? = earlier (s.setId p id).inter p (heads queue).head? := by
  have outside : p ∉ members queue := fun member => fresh (List.mem_append_left _ member)
  have notHead : p ∉ heads queue := fun member => outside (heads_subset member)
  have oldId : ∀ q ∈ members queue, ((s.setId p id).inter q).id = (s.inter q).id := by
    intro q member
    rw [setId_inter_of_ne fun here : q = p => outside (here ▸ member)]
  have queued' : Queued (s.setId p id) queue others := queued.congr rfl rfl oldId
  have newId : ((s.setId p id).inter p).id = id := setId_id
  have compares : Compares (timerCmpFunc (s.setId p id).inter id)
      (fun q => ((s.setId p id).inter q).id) ((s.setId p id).inter p).id := by
    rw [newId]
    exact timerCmpFunc_compares (s.setId p id).inter id
  have single : p ∉ (queue.map chainOf ++ others).flatten := by rwa [List.flatten_append]
  rcases queued'.indexed.add notHead compares with
    ⟨avl, l, r, run, old, indexed⟩ | ⟨q, member, same, run⟩
  · obtain ⟨a, b, rfl, rfl, rfl⟩ := List.map_eq_append_iff.mp old
    have sequence : heads (a ++ (p, []) :: b) = heads a ++ p :: heads b := by simp [heads]
    refine ⟨avl, s.list, a ++ (p, []) :: b, ?_, ⟨?_, ?_, ?_⟩, ?_, ?_⟩
    · refine run.imp fun fuel added => ?_
      simp only [addId, added, Option.bind_eq_bind, Option.bind_some, ne_eq, not_true_eq_false,
        if_false]
      rfl
    · rwa [sequence]
    · exact (queued'.chains.alone single).perm (chains_split a b (p, []) others).symm
    · intro x member q inTail
      rcases List.mem_append.mp member with inA | inB
      · exact queued'.sameId x (List.mem_append_left _ inA) q inTail
      · rcases List.mem_cons.mp inB with rfl | inB
        · contradiction
        · exact queued'.sameId x (List.mem_append_right _ inB) q inTail
    · exact members_split a b (p, [])
    · rw [sequence]
      rw [show heads (a ++ b) = heads a ++ heads b from List.map_append]
      exact head_added indexed.ordered
  · obtain ⟨⟨q, c⟩, inQueue, rfl⟩ := List.mem_map.mp member
    obtain ⟨a, b, rfl⟩ := List.append_of_mem inQueue
    have sequence : heads (a ++ (q, p :: c) :: b) = heads (a ++ (q, c) :: b) := by simp [heads]
    refine ⟨s.avl, dlistAppend (some q) p s.list, a ++ (q, p :: c) :: b, ?_, ⟨?_, ?_, ?_⟩, ?_, ?_⟩
    · refine run.imp fun fuel added => ?_
      have apart : p ≠ q := fun here => notHead (here ▸ member)
      simp only [addId, added, Option.bind_eq_bind, Option.bind_some, ne_eq, apart,
        not_false_eq_true, if_true]
      rfl
    · exact sequence ▸ queued'.indexed
    · have chains := queued'.chains.perm (chains_split a b (q, c) others)
      refine (dlistAppend_chains chains ?_).perm (chains_split a b (q, p :: c) others).symm
      exact (chains_split a b (q, c) others).flatten.mem_iff.not.mp single
    · refine queued'.sameId_middle fun z inTail => ?_
      rcases List.mem_cons.mp inTail with rfl | inTail
      · exact same.symm
      · exact queued'.sameId (q, c) (by simp) z inTail
    · have old := members_split a b (q, c)
      exact (members_split a b (q, p :: c)).trans
        ((List.Perm.swap ..).trans (old.symm.cons p))
    · have ordered := queued'.indexed.ordered
      rw [sequence]
      simp only [heads, List.map_append, List.map_cons] at ordered ⊢
      exact head_kept same ordered

theorem timerJoinAvl_spec (queued : Queued s queue others)
    (fresh : p ∉ members queue ++ others.flatten) (first : s.earliest = (heads queue).head?)
    (now : TimeVal) : ∃ avl list queue',
      Returns (fun fuel => timerJoinAvl fuel now p s)
        (((s.clearStop p).setId p (s.nextId now p)).place avl list (heads queue').head?) ∧
      Queued (((s.clearStop p).setId p (s.nextId now p)).place avl list (heads queue').head?)
        queue' others ∧
      (members queue').Perm (p :: members queue) := by
  have cleared : Queued (s.clearStop p) queue others :=
    queued.congr rfl rfl fun q _ => clearStop_id q
  obtain ⟨avl, list, queue', run, queued', perm, head⟩ :=
    addId_spec cleared fresh (s.nextId now p)
  refine ⟨avl, list, queue', run.imp fun fuel added => ?_,
    queued'.congr rfl rfl fun _ _ => rfl, perm⟩
  have same : (s.clearStop p).earliest = (heads queue).head? := first
  simp only [timerJoinAvl, added, Option.bind_eq_bind, Option.bind_some, head, ← same]
  rfl

/-- A node without a chain is deleted from the tree. -/
theorem leaveNode_alone {a b : List P} (single : (s.list p).next = none)
    (indexed : Indexed (fun p => (s.inter p).id) s.avl (a ++ p :: b))
    (first : s.earliest = (a ++ p :: b).head?) : ∃ avl,
      Returns (fun fuel => leaveNode fuel p s) (s.place avl s.list (a ++ b).head?) ∧
      Indexed (fun p => (s.inter p).id) avl (a ++ b) := by
  obtain ⟨avl, run, indexed'⟩ := indexed.del
  refine ⟨avl, ?_, indexed'⟩
  cases a with
  | nil =>
    refine run.imp₂ indexed'.leftest fun fuel deleted found => ?_
    have found : avlLeftestNode fuel avl.root avl = _ := found
    simp only [leaveNode, single, deleted, Option.bind_eq_bind, Option.bind_some, first,
      List.nil_append, List.head?_cons, if_true, State.leftest, found, Option.map_some]
    rfl
  | cons x a =>
    have less := (List.pairwise_cons.mp indexed.ordered).1 p (List.mem_append_right _ (by simp))
    have apart : x ≠ p := fun same => absurd less (same ▸ lt_irrefl _)
    refine run.imp fun fuel deleted => ?_
    simp only [leaveNode, single, deleted, Option.bind_eq_bind, Option.bind_some, first,
      List.cons_append, List.head?_cons, Option.some.injEq, apart, if_false, State.place]

/-- A node with a chain gives its place to the next of the chain. -/
theorem leaveNode_next {a b : List P} (next : (s.list p).next = some n)
    (indexed : Indexed (fun p => (s.inter p).id) s.avl (a ++ p :: b)) (fresh : n ∉ a ++ p :: b)
    (same : (s.inter n).id = (s.inter p).id) (first : s.earliest = (a ++ p :: b).head?) :
    (∀ fuel, leaveNode fuel p s =
      some (s.place (avlReplace2 n p s.avl) s.list (a ++ n :: b).head?)) ∧
      Indexed (fun p => (s.inter p).id) (avlReplace2 n p s.avl) (a ++ n :: b) := by
  refine ⟨fun fuel => ?_, indexed.replace fresh same⟩
  cases a with
  | nil => simp [leaveNode, next, first, State.place]
  | cons x a =>
    have less := (List.pairwise_cons.mp indexed.ordered).1 p (List.mem_append_right _ (by simp))
    have apart : x ≠ p := fun same => absurd less (same ▸ lt_irrefl _)
    simp [leaveNode, next, first, apart, State.place]

/-- A timer leaves the queue, and the node that it held goes to the next of its chain. -/
theorem timerLeaveAvl_spec (queued : Queued s queue others) (member : p ∈ members queue)
    (running : (s.inter p).stop = false) (first : s.earliest = (heads queue).head?) :
    ∃ avl list queue',
      Returns (fun fuel => timerLeaveAvl fuel p s)
        ((s.setStop p).place avl list (heads queue').head?) ∧
      Queued ((s.setStop p).place avl list (heads queue').head?) queue' others ∧
      (members queue).Perm (p :: members queue') := by
  obtain ⟨⟨q, c⟩, inQueue, inChain⟩ := mem_members.mp member
  obtain ⟨a, b, rfl⟩ := List.append_of_mem inQueue
  have stopped : Queued (s.setStop p) (a ++ (q, c) :: b) others :=
    queued.congr rfl rfl fun q _ => setStop_id q
  have chains := queued.chains.perm (chains_split a b (q, c) others)
  have linked := chains.linked _ (List.mem_cons_self ..)
  have whole := members_split a b (q, c)
  have indexed := stopped.indexed
  have split : ∀ x, heads (a ++ x :: b) = heads a ++ x.1 :: heads b := fun x => by simp [heads]
  rw [split] at indexed
  have first' : (s.setStop p).earliest = (heads a ++ q :: heads b).head? := by
    rw [← split (q, c)]
    exact first
  rcases List.mem_cons.mp inChain with rfl | inTail
  · obtain ⟨_, gone⟩ := dlistDel_chains (l := []) chains
    have link : s.list p = ⟨none, c.head?⟩ := linked.head
    have prev : ((s.setStop p).list p).prev = none := congrArg Link.prev link
    have next : ((s.setStop p).list p).next = c.head? := congrArg Link.next link
    cases c with
    | nil =>
      obtain ⟨avl, run, indexed'⟩ := leaveNode_alone next indexed first'
      have sequence : heads (a ++ b) = heads a ++ heads b := List.map_append
      refine ⟨avl, (dlistDel p s.list).1, a ++ b, run.imp fun fuel left => ?_,
        ⟨sequence ▸ indexed', chains_nil.mp gone, ?_⟩, whole⟩
      · simp only [timerLeaveAvl, running, Bool.false_eq_true, if_false, prev, if_true, left,
          Option.bind_eq_bind, Option.bind_some, sequence]
        rfl
      · exact fun x inside => stopped.sameId x (by
          rcases List.mem_append.mp inside with inA | inB
          · exact List.mem_append_left _ inA
          · exact List.mem_append_right _ (List.mem_cons_of_mem _ inB))
    | cons n c =>
      have notHead := stopped.tail_not_head (p := n) (List.mem_cons_self ..)
      have equal := stopped.sameId (p, n :: c) (by simp) n (List.mem_cons_self ..)
      rw [split] at notHead
      obtain ⟨left, indexed'⟩ := leaveNode_next next indexed notHead equal first'
      refine ⟨avlReplace2 n p s.avl, (dlistDel p s.list).1, a ++ (n, c) :: b,
        Returns.of_eq fun fuel => ?_, ⟨(split (n, c)) ▸ indexed', ?_, ?_⟩, ?_⟩
      · simp only [timerLeaveAvl, running, Bool.false_eq_true, if_false, prev, if_true, left,
          Option.bind_eq_bind, Option.bind_some, split]
        rfl
      · exact gone.perm (chains_split a b (n, c) others).symm
      · refine stopped.sameId_middle fun z inTail => ?_
        exact (stopped.sameId (p, n :: c) (by simp) z (List.mem_cons_of_mem _ inTail)).trans
          equal.symm
      · exact whole.trans ((members_split a b (n, c)).symm.cons p)
  · obtain ⟨l, r, rfl⟩ := List.append_of_mem inTail
    obtain ⟨_, gone⟩ := dlistDel_chains (l := q :: l) chains
    have link : s.list p = ⟨(q :: l).getLast?, r.head?⟩ := Linked.at (l := q :: l) linked
    have prev : ((s.setStop p).list p).prev ≠ none := by
      rw [show (s.setStop p).list p = _ from link]
      simp
    refine ⟨s.avl, (dlistDel p s.list).1, a ++ (q, l ++ r) :: b, Returns.of_eq fun fuel => ?_,
      ⟨(split (q, l ++ r)) ▸ indexed, ?_, ?_⟩, ?_⟩
    · simp only [timerLeaveAvl, running, Bool.false_eq_true, if_false, prev,
        Option.bind_eq_bind, Option.bind_some, split, ← first']
      rfl
    · exact gone.perm (chains_split a b (q, l ++ r) others).symm
    · refine stopped.sameId_middle fun z inTail => ?_
      refine stopped.sameId (q, l ++ p :: r) (by simp) z ?_
      rcases List.mem_append.mp inTail with inL | inR
      · exact List.mem_append_left _ inL
      · exact List.mem_append_right _ (List.mem_cons_of_mem _ inR)
    · refine whole.trans (.trans ?_ ((members_split a b (q, l ++ r)).symm.cons p))
      have moved : (q :: l ++ p :: r).Perm (p :: (q :: l ++ r)) := List.perm_middle
      exact moved.append_right _

omit [DecidableEq P] in
theorem Queued.inQueue_iff (queued : Queued s queue others) : InQueue s p ↔ p ∈ members queue := by
  constructor
  · intro inQueue
    induction inQueue with
    | node inTree => exact heads_subset (queued.indexed.inTree_iff.mp inTree)
    | chain _ next member =>
      obtain ⟨x, inQueue, inChain⟩ := mem_members.mp member
      have linked := queued.chains.linked (chainOf x)
        (List.mem_append_left _ (List.mem_map_of_mem inQueue))
      exact mem_members.mpr ⟨x, inQueue, linked.next_mem inChain next⟩
  · intro member
    obtain ⟨⟨q, c⟩, inQueue, inChain⟩ := mem_members.mp member
    have node : InQueue s q :=
      .node (queued.indexed.inTree_iff.mpr (List.mem_map_of_mem inQueue))
    have linked : Linked s.list none (q :: c) none := queued.chains.linked (chainOf (q, c))
      (List.mem_append_left _ (List.mem_map_of_mem inQueue))
    exact linked.walk (fun q p inQueue next => .chain inQueue next) node p inChain

end MoonInWater.Timer
