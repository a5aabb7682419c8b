import MoonInWater.Dns.Release

/-! The references of queries over whole runs. They hold up as long as no call of
moon_getaddrinfo resets the status of a query that has been completed. -/
namespace MoonInWater.Dns
open Threads
open RingBuffer (TimeVal)
variable {Q A : Type} [DecidableEq Q] {g g' : DnsPrivate Q A} {l l' : Call Q A} {q : Q} {d : Nat}
  {grant : Grant}

/-- What the calls know of a query, as long as it is not theirs to change. -/
structure Same (g g' : DnsPrivate Q A) (q : Q) : Prop where
  initDone : (g'.queries q).initDone = (g.queries q).initDone
  pDomain : (g'.queries q).pDomain = (g.queries q).pDomain
  refs : (g'.queries q).refs = (g.queries q).refs
  status : Untouched (g.queries q) → (g'.queries q).status = (g.queries q).status

/-- A query does not fall back behind init_done, nor lose its domain. -/
def Later (g g' : DnsPrivate Q A) (q : Q) : Prop :=
  ((g.queries q).initDone = true → (g'.queries q).initDone = true) ∧
    ((g.queries q).pDomain.isSome → (g'.queries q).pDomain.isSome)

omit [DecidableEq Q] in
theorem Same.of_eq (same : g'.queries q = g.queries q) : Same g g' q :=
  ⟨by rw [same], by rw [same], by rw [same], fun _ => by rw [same]⟩

omit [DecidableEq Q] in
theorem Same.later (same : Same g g' q) : Later g g' q := by
  rw [Later, same.initDone, same.pDomain]
  exact ⟨id, id⟩

omit [DecidableEq Q] in
theorem Same.untouched (same : Same g g' q) (untouched : Untouched (g.queries q)) :
    Untouched (g'.queries q) := by
  rw [Untouched, same.pDomain, same.refs]
  exact untouched

/-- A call keeps what it relies on while its query is left alone. -/
theorem Call.Good.same (good : l.Good g) (same : ∀ q, l.gets q ≠ 0 → Same g g' q)
    (later : ∀ q, Later g g' q) : l.Good g' := by
  cases l with
  | get c =>
    have mine : Same g g' c.query := same c.query (by simp [Call.gets])
    cases pc : c.pc with
    | lock =>
      simp only [Call.Good, pc] at good ⊢
      obtain ⟨addQuery, newAddrs, untouched, initDone, zero⟩ := good
      refine ⟨addQuery, newAddrs, mine.untouched untouched, ?_, ?_⟩
      · rw [mine.initDone, initDone]
      · rw [mine.status untouched, zero]
    | setStatus =>
      simp only [Call.Good, pc] at good ⊢
      rw [mine.initDone]
      exact ⟨good.1, fun add => mine.untouched (good.2.1 add), good.2.2⟩
    | initDone =>
      simp only [Call.Good, pc] at good ⊢
      rw [mine.initDone]
      exact ⟨good.1, fun some => mine.untouched (good.2 some)⟩
    | notice =>
      simp only [Call.Good, pc] at good ⊢
      exact mine.untouched good
    | _ => simp only [Call.Good, pc]
  | cancel q pc => exact ⟨(later q).1 good.1, (later q).2 good.2⟩
  | _ => exact trivial

theorem noticeUser_same {b : Nat} (told : noticeUser g b = some g') (q : Q) : Same g g' q := by
  unfold noticeUser at told
  split at told
  next q' rest _ =>
    cases told
    by_cases same : q = q'
    · subst same
      have now : ∀ query : Query, (g.setQuery q query).queries q = query :=
        fun query => Function.update_self ..
      constructor <;> simp only [now, implies_true]
    · exact .of_eq (Function.update_of_ne same ..)
  next => contradiction

theorem settle_same {n m : Nat} (inv : QueryInv g n m q) (now : TimeVal)
    (addrs : Option (Addrs A)) : Same g (settle now g d addrs) q := by
  by_cases member : q ∈ (g.domains d).queries
  · have query : (settle now g d addrs).queries q = { g.queries q with status := 1 } := if_pos member
    have home := inv.home d member
    refine ⟨by rw [query], by rw [query], by rw [query], fun untouched => ?_⟩
    exact absurd (untouched.1.symm.trans home) (by simp)
  · exact .of_eq (if_neg member)

theorem complete_queries (now : TimeVal) (g : DnsPrivate Q A) (d : Nat) (addrs : Option (Addrs A)) :
    (complete now g d addrs).1.queries = (settle now g d addrs).queries := by
  simp only [complete]
  split
  · split
    · exact (evict_still _).queries
    · rfl
  · rfl

theorem complete_same {n m : Nat} (inv : QueryInv g n m q) (now : TimeVal)
    (addrs : Option (Addrs A)) : Same g (complete now g d addrs).1 q := by
  have same := settle_same (d := d) inv now addrs
  constructor
  all_goals rw [complete_queries]
  · exact same.initDone
  · exact same.pDomain
  · exact same.refs
  · exact same.status

theorem callbackSection_same {n m : Nat} (inv : QueryInv g n m q) (now : TimeVal)
    (addrs : Option (Addrs A)) : Same g (callbackSection now g d addrs).1 q := by
  simp only [callbackSection]
  split
  · exact .of_eq rfl
  · split
    · have still : Still g (ageDel d g) := .of_domains rfl rfl rfl
      have same := complete_same (d := d) (still.inv inv) now addrs
      exact ⟨same.initDone, same.pDomain, same.refs, same.status⟩
    · split
      · exact complete_same inv now addrs
      · exact .of_eq rfl

/-- A step of moon_getaddrinfo changes no query but its own. -/
theorem getStep_same {c c' : Get Q A} {a : Answer} (good : (Call.get c).Good g)
    (fresh : (g.domains g.fresh).queries = []) (acted : getStep grant a g c = some (g', c')) :
    (∀ q ≠ c.query, Same g g' q) ∧ Later g g' c.query := by
  have all : (∀ q, Same g g' q) → (∀ q ≠ c.query, Same g g' q) ∧ Later g g' c.query :=
    fun same => ⟨fun q _ => same q, (same c.query).later⟩
  have own : ∀ {g₁ : DnsPrivate Q A} (query : Query),
      g₁.queries = Function.update g.queries c.query query →
      ((g.queries c.query).initDone = true → query.initDone = true) →
      ((g.queries c.query).pDomain.isSome → query.pDomain.isSome) →
      (∀ q ≠ c.query, Same g g₁ q) ∧ Later g g₁ c.query := by
    intro g₁ query queries initDone pDomain
    constructor
    · intro q apart
      exact .of_eq (by rw [queries, Function.update_of_ne apart])
    · rw [Later, queries, Function.update_self]
      exact ⟨initDone, pDomain⟩
  cases pc : c.pc with
  | done ret => simp only [getStep, pc, reduceCtorEq] at acted
  | lock =>
    simp only [Call.Good, pc] at good
    simp only [getStep, pc] at acted
    split at acted
    next name _ =>
      obtain ⟨⟨g₂, c₂⟩, ran, same⟩ := Option.map_eq_some_iff.mp acted
      cases same
      obtain ⟨_, _, g₁, still, ⟨_, rfl⟩ | ⟨_, d, rfl⟩⟩ :=
        getSection_waiting fresh good.1 good.2.1 ran
      · exact all fun q => .of_eq (by rw [still.queries])
      · refine own _ (congrArg (Function.update · c.query _) still.queries) ?_ fun _ => rfl
        intro done
        rw [still.queries]
        exact done
    next addr _ =>
      cases acted
      split
      all_goals exact own { g.queries c.query with status := 1 } rfl id id
  | setStatus =>
    simp only [getStep, pc] at acted
    cases acted
    exact own _ rfl id id
  | initDone =>
    simp only [getStep, pc] at acted
    cases acted
    exact own _ rfl (fun _ => rfl) id
  | notice =>
    simp only [getStep, pc] at acted
    cases acted
    exact own _ rfl id id
  | noticeUser b =>
    simp only [getStep, pc] at acted
    split at acted
    next told =>
      cases acted
      exact all (noticeUser_same told)
    next =>
      cases acted
      exact all fun q => .of_eq rfl
  | readCares =>
    simp only [getStep, pc] at acted
    cases acted
    exact all fun q => .of_eq rfl
  | linkCares tmp =>
    simp only [getStep, pc] at acted
    obtain ⟨d, _, acted⟩ := Option.bind_eq_some_iff.mp acted
    cases acted
    exact all fun q => .of_eq rfl
  | casCares tmp =>
    simp only [getStep, pc] at acted
    obtain ⟨d, _, acted⟩ := Option.bind_eq_some_iff.mp acted
    split at acted
    · cases acted
      refine all fun q => .of_eq ?_
      split
      all_goals rfl
    · cases acted
      exact all fun q => .of_eq rfl

/-- A step of cancel_query keeps what the calls know, its query having a domain. -/
theorem cancelStep_same {q' : Q} {pc pc' : CancelPc} (home : (g.queries q').pDomain.isSome)
    (acted : cancelStep g q' pc = some (g', pc')) (q : Q) : Same g g' q := by
  have own : ∀ {g₁ : DnsPrivate Q A} (query : Query),
      g₁.queries = Function.update g.queries q' query →
      query.initDone = (g.queries q').initDone → query.pDomain = (g.queries q').pDomain →
      query.refs = (g.queries q').refs → Same g g₁ q := by
    intro g₁ query queries initDone pDomain refs
    by_cases same : q = q'
    · subst same
      constructor
      all_goals rw [queries, Function.update_self]
      · exact initDone
      · exact pDomain
      · exact refs
      · intro untouched
        rw [untouched.1] at home
        contradiction
    · exact .of_eq (by rw [queries, Function.update_of_ne same])
  cases pc with
  | done => contradiction
  | look =>
    cases acted
    exact .of_eq rfl
  | lock =>
    simp only [cancelStep] at acted
    split at acted
    · obtain ⟨d, _, moved⟩ := Option.bind_eq_some_iff.mp acted
      cases moved
      exact own _ rfl rfl rfl rfl
    · cases acted
      exact .of_eq rfl
  | drop =>
    cases acted
    exact own _ rfl rfl rfl rfl

theorem callbackStep_inv {n m : Nat} {a : Answer} {addrs : Option (Addrs A)} {pc pc' : CallbackPc}
    (inv : QueryInv g n m q) (acted : callbackStep a g d addrs pc = some (g', pc')) :
    QueryInv g' n m q ∧ Same g g' q := by
  cases pc with
  | done => contradiction
  | lock =>
    cases acted
    exact ⟨callbackSection_inv inv a.now addrs, callbackSection_same inv a.now addrs⟩
  | noticeUser b del =>
    simp only [callbackStep] at acted
    split at acted
    next told =>
      cases acted
      exact ⟨noticeUser_inv inv told, noticeUser_same told q⟩
    next =>
      cases acted
      exact ⟨inv, .of_eq rfl⟩
  | free del =>
    cases acted
    cases del with
    | none => exact ⟨inv, .of_eq rfl⟩
    | some d =>
      have still : Still g (free d g) := .of_change rfl rfl rfl rfl
      exact ⟨still.inv inv, .of_eq rfl⟩

omit [DecidableEq Q] in
theorem taskStep_still {a : Answer} {pc pc' : TaskPc}
    (acted : taskStep grant a g pc = some (g', pc')) : Still g g' := by
  have looked : ∀ d, Still g (lookUp grant d g) := by
    intro d
    unfold lookUp
    split
    · exact .of_domains rfl rfl rfl
    · exact .refl g
  cases pc with
  | readCares =>
    cases acted
    exact .refl g
  | casCares list =>
    simp only [taskStep] at acted
    split at acted
    · cases acted
      exact .of_domains rfl rfl rfl
    · cases acted
      exact .refl g
  | walk list =>
    cases list with
    | none =>
      cases acted
      exact .refl g
    | some d =>
      simp only [taskStep, lookUp] at acted
      split at acted
      · cases acted
        exact .of_domains rfl rfl rfl
      · cases acted
        exact .of_domains rfl rfl rfl
  | second d =>
    cases acted
    exact looked d
  | link d =>
    cases acted
    exact .refl g
  | expire =>
    obtain ⟨⟨g₁, dels⟩, ran, same⟩ := Option.map_eq_some_iff.mp acted
    cases same
    exact expire_still ran
  | free dels =>
    cases dels with
    | nil =>
      cases acted
      exact .refl g
    | cons d dels =>
      cases acted
      exact .of_change rfl rfl rfl rfl

/-- The call goes through the list with notice_user. -/
def Call.walks (i : Nat) : Call Q A → Nat
  | .get c => if c.pc = .noticeUser i then 1 else 0
  | .callback _ _ (.noticeUser b _) => if b = i then 1 else 0
  | _ => 0

omit [DecidableEq Q] in
theorem walks_get {c : Get Q A} {i : Nat} :
    (Call.get c).walks i = if c.pc = .noticeUser i then 1 else 0 := rfl

omit [DecidableEq Q] in
theorem walks_callback {addrs : Option (Addrs A)} {b i : Nat} {del : Option Nat} :
    (Call.callback d addrs (.noticeUser b del) : Call Q A).walks i = if b = i then 1 else 0 := rfl

/-- A list that is walked is empty behind its end, and has a call that walks it until then. -/
def Walked (g : DnsPrivate Q A) (walks : Nat → Nat) : Prop :=
  ∀ i b, g.batches[i]? = some b → (b.pQuery = none → b.rest = []) ∧ (b.pQuery.isSome → 0 < walks i)

omit [DecidableEq Q] in
theorem Walked.mono {walks walks' : Nat → Nat} (walked : Walked g walks)
    (batches : g'.batches = g.batches) (kept : ∀ i, 0 < walks i → 0 < walks' i) :
    Walked g' walks' := by
  intro i b found
  rw [batches] at found
  obtain ⟨last, some⟩ := walked i b found
  exact ⟨last, fun more => kept i (some more)⟩

omit [DecidableEq Q] in
/-- The walk of a new list. -/
theorem Walked.push {walks walks' : Nat → Nat} (walked : Walked g walks) {l : List Q}
    (batches : g'.batches = g.batches ++ [⟨l.head?, l.tail⟩])
    (kept : ∀ i, 0 < walks i → 0 < walks' i) (new : 0 < walks' g.batches.length) :
    Walked g' walks' := by
  intro i b found
  rw [batches, List.getElem?_append] at found
  split at found
  · obtain ⟨last, some⟩ := walked i b found
    exact ⟨last, fun more => kept i (some more)⟩
  next past =>
    have at' : i - g.batches.length = 0 := by
      have bound := (List.getElem?_eq_some_iff.mp found).1
      simp only [List.length_singleton] at bound
      omega
    rw [at'] at found
    cases found
    refine ⟨fun none => ?_, fun _ => ?_⟩
    · rw [List.head?_eq_none_iff.mp none]
      rfl
    · rwa [show i = g.batches.length by omega]

theorem noticeUser_walked {walks : Nat → Nat} {b : Nat} (walked : Walked g walks)
    (told : noticeUser g b = some g') : Walked g' walks := by
  unfold noticeUser at told
  split at told
  next q rest found =>
    cases told
    intro i b' at'
    rw [List.getElem?_set] at at'
    split at at'
    next same =>
      subst same
      split at at'
      · cases at'
        constructor
        · intro none
          rw [List.head?_eq_none_iff.mp none]
          rfl
        · exact fun _ => (walked b _ found).2 rfl
      · contradiction
    next => exact walked i b' at'
  next => contradiction

/-- A list at whose end notice_user stops needs no more walk. -/
theorem Walked.stop {walks walks' : Nat → Nat} {b : Nat} (walked : Walked g walks)
    (ended : noticeUser g b = none) (kept : ∀ i ≠ b, walks' i = walks i) : Walked g walks' := by
  intro i b' found
  obtain ⟨last, some⟩ := walked i b' found
  refine ⟨last, fun more => ?_⟩
  by_cases same : i = b
  · subst same
    obtain ⟨q, has⟩ := Option.isSome_iff_exists.mp more
    obtain ⟨pQuery, rest⟩ := b'
    cases has
    simp only [noticeUser, found, reduceCtorEq] at ended
  · rw [kept i same]
    exact some more

theorem dlistDel_walked {walks : Nat → Nat} (walked : Walked g walks)
    (batches : g'.batches = g.batches.map (Batch.dlistDel q)) : Walked g' walks := by
  intro i b found
  rw [batches, List.getElem?_map] at found
  obtain ⟨b, old, same⟩ := Option.map_eq_some_iff.mp found
  subst same
  obtain ⟨last, some⟩ := walked i b old
  unfold Batch.dlistDel
  split
  · exact ⟨fun _ => rfl, some⟩
  · refine ⟨fun none => ?_, some⟩
    rw [show (_ : Batch Q).rest = b.rest.erase q from rfl, last none]
    rfl

section
variable {n : Nat → Nat}

theorem getStep_walked {c c' : Get Q A} {a : Answer} (good : (Call.get c).Good g)
    (fresh : (g.domains g.fresh).queries = []) (acted : getStep grant a g c = some (g', c'))
    (walked : Walked g fun i => (Call.get c).walks i + n i) :
    Walked g' fun i => (Call.get c').walks i + n i := by
  have quiet : ∀ {g' : DnsPrivate Q A} {c' : Get Q A}, (∀ b, c.pc ≠ .noticeUser b) →
      g'.batches = g.batches → Walked g' fun i => (Call.get c').walks i + n i := by
    intro g' c' other batches
    refine walked.mono batches fun i some => ?_
    have none : (Call.get c).walks i = 0 := if_neg (other i)
    omega
  cases pc : c.pc with
  | done ret => simp only [getStep, pc, reduceCtorEq] at acted
  | lock =>
    simp only [Call.Good, pc] at good
    simp only [getStep, pc] at acted
    split at acted
    · obtain ⟨⟨g₂, c₂⟩, ran, same⟩ := Option.map_eq_some_iff.mp acted
      cases same
      obtain ⟨_, _, g₁, still, ⟨_, rfl⟩ | ⟨_, d, rfl⟩⟩ :=
        getSection_waiting fresh good.1 good.2.1 ran
      · exact quiet (by simp [pc]) still.batches
      · exact quiet (by simp [pc]) still.batches
    · cases acted
      exact quiet (by simp [pc]) rfl
  | setStatus =>
    simp only [getStep, pc] at acted
    cases acted
    exact quiet (by simp [pc]) rfl
  | initDone =>
    simp only [getStep, pc] at acted
    cases acted
    exact quiet (by simp [pc]) rfl
  | notice =>
    simp only [getStep, pc] at acted
    cases acted
    refine walked.push (l := [c.query]) rfl (fun i some => ?_) ?_
    · have none : (Call.get c).walks i = 0 := by simp [walks_get, pc]
      omega
    · simp only [walks_get, if_true]
      omega
  | noticeUser b =>
    have mine : ∀ i ≠ b, (Call.get c).walks i = 0 := fun i apart =>
      if_neg (by simp [pc, Ne.symm apart])
    simp only [getStep, pc] at acted
    split at acted
    next told =>
      cases acted
      exact noticeUser_walked walked told
    next ended =>
      cases acted
      refine walked.stop ended fun i apart => ?_
      rw [mine i apart]
      rfl
  | readCares =>
    simp only [getStep, pc] at acted
    cases acted
    exact quiet (by simp [pc]) rfl
  | linkCares tmp =>
    simp only [getStep, pc] at acted
    obtain ⟨d, _, acted⟩ := Option.bind_eq_some_iff.mp acted
    cases acted
    exact quiet (by simp [pc]) rfl
  | casCares tmp =>
    simp only [getStep, pc] at acted
    obtain ⟨d, _, acted⟩ := Option.bind_eq_some_iff.mp acted
    split at acted
    · cases acted
      refine quiet (by simp [pc]) ?_
      split
      all_goals rfl
    · cases acted
      exact quiet (by simp [pc]) rfl

theorem cancelStep_walked {q' : Q} {pc pc' : CancelPc} (acted : cancelStep g q' pc = some (g', pc'))
    (walked : Walked g n) : Walked g' n := by
  cases pc with
  | done => contradiction
  | look =>
    cases acted
    exact walked
  | lock =>
    simp only [cancelStep] at acted
    split at acted
    · obtain ⟨d, _, moved⟩ := Option.bind_eq_some_iff.mp acted
      cases moved
      exact dlistDel_walked walked rfl
    · cases acted
      exact walked
  | drop =>
    cases acted
    exact walked.mono rfl fun _ => id

theorem complete_batches (now : TimeVal) (g : DnsPrivate Q A) (d : Nat) (addrs : Option (Addrs A)) :
    (complete now g d addrs).1.batches = g.batches ++
      [⟨(g.domains d).queries.head?, (g.domains d).queries.tail⟩] := by
  simp only [complete]
  split
  · split
    · exact (evict_still _).batches
    · rfl
  · rfl

/-- The section of domain_callback starts at most one walk. -/
theorem callbackSection_batches (now : TimeVal) (g : DnsPrivate Q A) (d : Nat)
    (addrs : Option (Addrs A)) :
    (callbackSection now g d addrs).1.batches = g.batches ∨
      ∃ l : List Q, (callbackSection now g d addrs).1.batches = g.batches ++ [⟨l.head?, l.tail⟩] := by
  simp only [callbackSection]
  split
  · exact .inl rfl
  · split
    · exact .inr ⟨_, complete_batches now (ageDel d g) d addrs⟩
    · split
      · exact .inr ⟨_, complete_batches now g d addrs⟩
      · exact .inl rfl

theorem callbackStep_walked {a : Answer} {addrs : Option (Addrs A)} {pc pc' : CallbackPc}
    (acted : callbackStep a g d addrs pc = some (g', pc'))
    (walked : Walked g fun i => (Call.callback d addrs pc : Call Q A).walks i + n i) :
    Walked g' fun i => (Call.callback d addrs pc' : Call Q A).walks i + n i := by
  cases pc with
  | done => contradiction
  | lock =>
    cases acted
    have more : ∀ i, 0 < (Call.callback d addrs .lock : Call Q A).walks i + n i →
        0 < (Call.callback d addrs (.noticeUser g.batches.length
          (callbackSection a.now g d addrs).2) : Call Q A).walks i + n i := by
      intro i some
      have none : (Call.callback d addrs .lock : Call Q A).walks i = 0 := rfl
      omega
    rcases callbackSection_batches a.now g d addrs with batches | ⟨l, batches⟩
    · exact walked.mono batches more
    · refine walked.push batches more ?_
      simp only [walks_callback, if_true]
      omega
  | noticeUser b del =>
    simp only [callbackStep] at acted
    split at acted
    next told =>
      cases acted
      exact noticeUser_walked walked told
    next ended =>
      cases acted
      refine walked.stop ended fun i apart => ?_
      rw [walks_callback, if_neg (Ne.symm apart)]
      rfl
  | free del =>
    cases acted
    refine walked.mono ?_ fun _ => id
    cases del with
    | none => rfl
    | some d => rfl

theorem step_walked {a : Answer} (good : l.Good g) (fresh : (g.domains g.fresh).queries = [])
    (acted : step grant a g l = some (g', l'))
    (walked : Walked g fun i => l.walks i + n i) : Walked g' fun i => l'.walks i + n i := by
  cases l with
  | get c =>
    obtain ⟨⟨g₁, c'⟩, moved, same⟩ := Option.map_eq_some_iff.mp acted
    cases same
    exact getStep_walked good fresh moved walked
  | cancel q pc =>
    obtain ⟨⟨g₁, pc'⟩, moved, same⟩ := Option.map_eq_some_iff.mp acted
    cases same
    exact cancelStep_walked moved walked
  | callback d addrs pc =>
    obtain ⟨⟨g₁, pc'⟩, moved, same⟩ := Option.map_eq_some_iff.mp acted
    cases same
    exact callbackStep_walked moved walked
  | task pc =>
    obtain ⟨⟨g₁, pc'⟩, moved, same⟩ := Option.map_eq_some_iff.mp acted
    cases same
    exact walked.mono (taskStep_still moved).batches fun _ => id

end

/-- The queries of a run with the lists in which they are. -/
structure PendingInv (s : Config (DnsPrivate Q A) (Call Q A)) : Prop where
  queries : ∀ q, QueryInv s.shared (s.total (Call.dropping q)) (s.total (Call.gets q)) q
  good : ∀ l ∈ s.calls, l.Good s.shared
  walked : Walked s.shared fun i => s.total (Call.walks i)

/-- What a step does to the queries. -/
theorem step_queries {a : Answer} {n m : Q → Nat}
    (inv : ∀ q, QueryInv g (l.dropping q + n q) (l.gets q + m q) q) (good : l.Good g)
    (fresh : (g.domains g.fresh).queries = []) (careful : l.resets g = false)
    (acted : step grant a g l = some (g', l')) :
    (∀ q, QueryInv g' (l'.dropping q + n q) (l'.gets q + m q) q) ∧ l'.Good g' ∧
      ∀ q, Later g g' q ∧ (l.gets q = 0 → Same g g' q) := by
  cases l with
  | get c =>
    obtain ⟨⟨g₁, c'⟩, moved, same⟩ := Option.map_eq_some_iff.mp acted
    cases same
    obtain ⟨query, good', kept⟩ := getStep_inv inv good fresh careful moved
    obtain ⟨others, later⟩ := getStep_same good fresh moved
    refine ⟨fun q => ?_, good', fun q => ⟨?_, fun none => ?_⟩⟩
    · rw [show (Call.get c').gets q = (Call.get c).gets q by simp only [Call.gets, query]]
      exact kept q
    · by_cases same : q = c.query
      · exact same ▸ later
      · exact (others q same).later
    · refine others q fun same => ?_
      simp [Call.gets, same] at none
  | cancel q pc =>
    obtain ⟨⟨g₁, pc'⟩, moved, same⟩ := Option.map_eq_some_iff.mp acted
    cases same
    have same := cancelStep_same good.2 moved
    refine ⟨cancelStep_inv inv good moved, ?_, fun q => ⟨(same q).later, fun _ => same q⟩⟩
    exact ⟨(same q).later.1 good.1, (same q).later.2 good.2⟩
  | callback d addrs pc =>
    obtain ⟨⟨g₁, pc'⟩, moved, same⟩ := Option.map_eq_some_iff.mp acted
    cases same
    have kept := fun q => callbackStep_inv (inv q) moved
    exact ⟨fun q => (kept q).1, trivial, fun q => ⟨(kept q).2.later, fun _ => (kept q).2⟩⟩
  | task pc =>
    obtain ⟨⟨g₁, pc'⟩, moved, same⟩ := Option.map_eq_some_iff.mp acted
    cases same
    have still := taskStep_still moved
    have same : ∀ q, Same g g₁ q := fun q => .of_eq (by rw [still.queries])
    exact ⟨fun q => still.inv (inv q), trivial, fun q => ⟨(same q).later, fun _ => same q⟩⟩

theorem step_pending {a : Answer} {pre post : List (Call Q A)}
    (inv : PendingInv ⟨g, pre ++ l :: post⟩) (fresh : (g.domains g.fresh).queries = [])
    (careful : l.resets g = false) (acted : step grant a g l = some (g', l')) :
    PendingInv ⟨g', pre ++ l' :: post⟩ := by
  obtain ⟨queries, good, walked⟩ := inv
  simp only [total_split] at queries walked
  have mine : l.Good g := good l (by simp)
  obtain ⟨kept, good', known⟩ := step_queries queries mine fresh careful acted
  refine ⟨fun q => ?_, ?_, ?_⟩
  · simp only [total_split]
    exact kept q
  · refine forall_split good good' fun x member ok => ?_
    refine ok.same (fun q asks => (known q).2 ?_) fun q => (known q).1
    have own := (queries q).own
    have part : x.gets q ≤ others (Call.gets q) pre post := weight_le_others member
    omega
  · simp only [total_split]
    exact step_walked mine fresh acted walked

/-- A pipe is given to moon_getaddrinfo. -/
theorem QueryInv.taken {n m : Nat} (inv : QueryInv g n m q) (unused : (g.queries q).used = false)
    (initDone : Bool) : QueryInv (g.setQuery q
      { g.queries q with used := true, initDone := initDone }) n (m + 1) q := by
  obtain ⟨none, _⟩ := inv.unused unused
  have kept : QueryInv (g.setQuery q { g.queries q with used := true, initDone := initDone }) n m q :=
    inv.hand (Function.update_self ..) rfl rfl rfl (fun _ => Iff.rfl) rfl (fun _ => rfl) rfl
  refine { kept with own := by omega, unused := fun unused => ?_ }
  simp [DnsPrivate.setQuery] at unused

theorem start_pending {ev : Event Q A} {ls : List (Call Q A)} (inv : PendingInv ⟨g, ls⟩)
    (started : start ev g = some (g', l)) : PendingInv ⟨g', ls ++ [l]⟩ := by
  obtain ⟨queries, good, walked⟩ := inv
  have quiet : ∀ {g' : DnsPrivate Q A} {l : Call Q A}, (∀ q, l.gets q = 0) →
      (∀ q, l.dropping q = 0) → (∀ q, QueryInv g' (Config.total (Call.dropping q) ⟨g, ls⟩)
        (Config.total (Call.gets q) ⟨g, ls⟩) q) → (∀ q, Same g g' q) → l.Good g' →
      g'.batches = g.batches → PendingInv ⟨g', ls ++ [l]⟩ := by
    intro g' l gets dropping kept same ok batches
    refine ⟨fun q => ?_, ?_, ?_⟩
    · simp only [total_start _ g' g, gets, dropping, Nat.add_zero]
      exact kept q
    · exact forall_start good ok fun x ok => ok.same (fun q _ => same q) fun q => (same q).later
    · refine walked.mono batches fun i some => ?_
      simp only [total_start _ g' g]
      omega
  cases ev with
  | get given q host clearCache dontUseCache tv =>
    have taken : ∀ (initDone : Bool) (c : Get Q A), c.query = q → c.pc = .lock ∨ (∃ ret, c.pc = .done ret) →
        (g.queries q).used = false → (Call.get c).Good (g.setQuery q
          { g.queries q with used := true, initDone := initDone }) →
        PendingInv ⟨g.setQuery q { g.queries q with used := true, initDone := initDone },
          ls ++ [.get c]⟩ := by
      intro initDone c mine at' unused ok
      have none := ((queries q).unused unused).1
      refine ⟨fun p => ?_, ?_, ?_⟩
      · simp only [total_start _ _ g, Call.dropping, Nat.add_zero, Call.gets, mine]
        by_cases same : q = p
        · subst same
          rw [if_pos rfl]
          exact (queries q).taken unused initDone
        · rw [if_neg same]
          exact (queries p).other (Function.update_of_ne (Ne.symm same) ..) (fun _ => rfl) rfl
      · refine List.forall_mem_append.mpr ⟨fun x member => ?_, fun x new => ?_⟩
        · have part : x.gets q ≤ Config.total (Call.gets q) ⟨g, ls⟩ := weight_le_total member
          have apart : ∀ p ≠ q, Same g (g.setQuery q
              { g.queries q with used := true, initDone := initDone }) p :=
            fun p apart => .of_eq (Function.update_of_ne apart ..)
          refine (good x member).same (fun p asks => apart p fun same => ?_) fun p => ?_
          · subst same
            exact asks (by omega)
          · by_cases same : p = q
            · subst same
              have fresh := ((queries p).unused unused).2
              rw [Later, fresh]
              exact ⟨(by rintro ⟨⟩), (by rintro ⟨⟩)⟩
            · exact (apart p same).later
        · rw [List.mem_singleton.mp new]
          exact ok
      · refine walked.mono rfl fun i some => ?_
        simp only [total_start _ _ g]
        omega
    simp only [start] at started
    split at started
    · contradiction
    next unused =>
      have unused := Bool.eq_false_iff.mpr unused
      have fresh := ((queries q).unused unused).2
      split at started
      · cases started
        have ok := taken (g.queries q).initDone
          ⟨q, host, clearCache, dontUseCache, tv, none, none, false, false, true, .lock⟩ rfl
          (.inl rfl) unused
        refine ok ?_
        rw [fresh]
        simp only [Call.Good, DnsPrivate.setQuery, Function.update_self]
        exact ⟨trivial, trivial, ⟨rfl, rfl⟩, rfl, rfl⟩
      · cases started
        exact taken true _ rfl (.inr ⟨-1, rfl⟩) unused trivial
  | cancel q =>
    simp only [start] at started
    split at started
    next ready =>
      obtain ⟨initDone, home, _⟩ := ready
      cases started
      have same : ∀ p, Same g (g.setQuery q { g.queries q with closed := true }) p := by
        intro p
        by_cases same : p = q
        · subst same
          constructor <;> simp only [DnsPrivate.setQuery, Function.update_self, implies_true]
        · exact .of_eq (Function.update_of_ne same ..)
      refine quiet (fun _ => rfl) (fun _ => rfl) (fun p => ?_) same ?_ rfl
      · have used := (queries q).used (.inr (.inr home))
        exact setQuery_inv queries { g.queries q with closed := true } rfl rfl rfl rfl rfl
          (fun _ => Iff.rfl) used p
      · simp only [Call.Good, DnsPrivate.setQuery, Function.update_self]
        exact ⟨initDone, home⟩
    next => contradiction
  | callback d addrs =>
    simp only [start] at started
    split at started
    · contradiction
    · cases started
      have still : ∀ lookups, Still g { g with lookups := lookups } :=
        fun _ => .of_domains rfl rfl rfl
      exact quiet (fun _ => rfl) (fun _ => rfl) (fun q => (still _).inv (queries q))
        (fun q => .of_eq rfl) trivial rfl
  | task =>
    simp only [start] at started
    split at started
    · contradiction
    · cases started
      have still : Still g { g with started := true } := .of_domains rfl rfl rfl
      exact quiet (fun _ => rfl) (fun _ => rfl) (fun q => still.inv (queries q))
        (fun q => .of_eq rfl) trivial rfl

theorem initial_pending : PendingInv (⟨initial, []⟩ : Config (DnsPrivate Q A) (Call Q A)) where
  queries q :=
    { refs := rfl
      once := Nat.zero_le _
      home := fun _ member => absurd member List.not_mem_nil
      linked := fun d home => absurd home.symm (Option.some_ne_none d)
      strays := rfl
      own := Nat.zero_le _
      unused := fun _ => ⟨rfl, rfl⟩ }
  good _ member := absurd member List.not_mem_nil
  walked _ _ found := by simp [initial] at found

omit [DecidableEq Q] in
/-- A domain that has not been made has nothing that waits for it. -/
theorem CacheInv.nothing_new {room : Int} {due : Nat → Nat} (inv : CacheInv room g due) :
    (g.domains g.fresh).queries = [] :=
  (inv.outside g.fresh fun member => Nat.lt_irrefl _ (inv.known _ member)).2.1

/-- No call of moon_getaddrinfo resets the status of a query that has been completed. -/
def careful (s : Config (DnsPrivate Q A) (Call Q A)) (l : Call Q A) : Bool := !l.resets s.shared

theorem runs_pending {s : Config (DnsPrivate Q A) (Call Q A)}
    (run : (dns Q A .atPush).ReachesWhere (fun s l => careful s l = true) ⟨initial, []⟩ s) :
    StatusInv s ∧ PendingInv s := by
  refine Program.ReachesWhere.invariant (I := fun s => StatusInv s ∧ PendingInv s) ?_ ?_ ?_ run
  · exact ⟨runs_status .refl, initial_pending⟩
  · intro ev g g' l ls inv started
    exact ⟨start_status inv.1 started, start_pending inv.2 started⟩
  · intro a g g' l l' pre post inv met acted
    refine ⟨step_status inv.1 acted, ?_⟩
    refine step_pending inv.2 inv.1.cache.nothing_new ?_ acted
    rwa [careful, Bool.not_eq_true'] at met

/-- The call has returned; dns_task never does. -/
def Call.returned : Call Q A → Prop
  | .get c => ∃ ret, c.pc = .done ret
  | .cancel _ pc => pc = .done
  | .callback _ _ pc => pc = .done
  | .task _ => True

/-- Where the reference is: it waits for a domain with callbacks to come, stands in a list that
is walked, is with the cancel_query that took it off its list, or has been dropped. -/
theorem query_released {s : Config (DnsPrivate Q A) (Call Q A)}
    (run : (dns Q A .atPush).ReachesWhere (fun s l => careful s l = true) ⟨initial, []⟩ s) (q : Q) :
    (s.shared.queries q).refs ≤ 1 ∧ (s.shared.queries q).strays = 0 ∧
      (s.shared.queries q).refs = waits s.shared q + held s.shared q + s.total (Call.dropping q) +
        (s.shared.queries q).noticed + (s.shared.queries q).canceled ∧
      (0 < waits s.shared q → ∃ d, (s.shared.queries q).pDomain = some d ∧ 0 < toCome s d) ∧
      ((∀ l ∈ s.calls, l.returned) → (∀ d, s.shared.lookups d = 0) →
        (s.shared.queries q).noticed + (s.shared.queries q).canceled =
          (s.shared.queries q).refs) := by
  obtain ⟨⟨cache, _⟩, queries, _, walked⟩ := runs_pending run
  obtain ⟨refs, once, home, _, strays, _, _⟩ := queries q
  have coming : 0 < waits s.shared q →
      ∃ d, (s.shared.queries q).pDomain = some d ∧ 0 < toCome s d := by
    intro some
    cases at' : (s.shared.queries q).pDomain with
    | none => simp only [waits, at', Option.elim_none, Nat.lt_irrefl] at some
    | some d =>
      refine ⟨d, rfl, ?_⟩
      simp only [waits, at', Option.elim_some] at some
      have waiting : (s.shared.domains d).queries ≠ [] :=
        List.ne_nil_of_mem (List.count_pos_iff.mp some)
      have member : d ∈ s.shared.table := by
        by_contra other
        exact waiting (cache.outside d other).2.1
      rcases (cache.entries d member).cases with ⟨_, two⟩ | ⟨_, one⟩ | ⟨_, _, none⟩
      · omega
      · omega
      · exact absurd none waiting
  refine ⟨once, strays, refs, coming, fun ended none => ?_⟩
  have idle : ∀ w : Call Q A → Nat, (∀ l : Call Q A, l.returned → w l = 0) → s.total w = 0 := by
    intro w zero
    by_contra some
    obtain ⟨l, member, positive⟩ := exists_of_total_pos (Nat.pos_of_ne_zero some)
    exact Nat.lt_irrefl 0 (zero l (ended l member) ▸ positive)
  have dropping : s.total (Call.dropping q) = 0 := idle _ fun l returned => by
    cases l with
    | cancel p pc =>
      cases returned
      rfl
    | _ => rfl
  have asks : ∀ d, toCome s d = 0 := fun d => by
    rw [toCome, none, Nat.zero_add]
    refine idle _ fun l returned => ?_
    cases l with
    | get c =>
      obtain ⟨ret, done⟩ := returned
      simp only [Call.asks, done, GetPc.asking, Bool.false_eq_true, if_false]
    | callback d addrs pc =>
      cases returned
      rfl
    | _ => rfl
  have walks : ∀ i, s.total (Call.walks i) = 0 := fun i => idle _ fun l returned => by
    cases l with
    | get c =>
      obtain ⟨ret, done⟩ := returned
      simp only [walks_get, done, reduceCtorEq, if_false]
    | callback d addrs pc =>
      cases returned
      rfl
    | _ => rfl
  have empty : held s.shared q = 0 := by
    refine List.sum_eq_zero fun k member => ?_
    obtain ⟨b, inBatches, rfl⟩ := List.mem_map.mp member
    obtain ⟨i, bound, rfl⟩ := List.mem_iff_getElem.mp inBatches
    obtain ⟨last, some⟩ := walked i _ (List.getElem?_eq_getElem bound)
    cases at' : (s.shared.batches[i]).pQuery with
    | none => simp only [Batch.held, at', last at', Option.toList_none, List.count_nil,
        Nat.add_zero]
    | some p =>
      have positive := some (by rw [at']; rfl)
      simp only [walks, Nat.lt_irrefl] at positive
  have nowhere : waits s.shared q = 0 := by
    by_contra some
    obtain ⟨d, _, positive⟩ := coming (Nat.pos_of_ne_zero some)
    rw [asks] at positive
    contradiction
  omega

/-- Two queries for one name: one is cancelled while it waits, the other one is told. -/
def twoQueries : List (Event Nat Nat ⊕ Nat × Answer) :=
  let now : Answer := ⟨⟨7, 0⟩, true⟩
  List.flatten [
    [.inl (.get true 0 (.name ['a']) false false none)], Program.turns 0 6 now,
    [.inl (.get true 1 (.name ['a']) false false none)], Program.turns 1 3 now,
    [.inl (.cancel 1)], Program.turns 2 3 now,
    [.inl (.callback 0 none)], Program.turns 3 3 now,
    [.inl (.callback 0 none)], Program.turns 4 4 now]

theorem query_released_twoQueries : ∃ s : Config (DnsPrivate Nat Nat) (Call Nat Nat),
    (dns Nat Nat .atPush).ReachesWhere (fun s l => careful s l = true) ⟨initial, []⟩ s ∧
      (s.shared.queries 0).refs = 1 ∧ (s.shared.queries 0).noticed = 1 ∧
      (s.shared.queries 1).refs = 1 ∧ (s.shared.queries 1).canceled = 1 ∧
      (s.shared.queries 0).refs ≤ 1 ∧ (s.shared.queries 1).strays = 0 := by
  have executed : ((dns Nat Nat .atPush).execWhere careful twoQueries ⟨initial, []⟩).map
      (fun s => ((s.shared.queries 0).refs, (s.shared.queries 0).noticed,
        (s.shared.queries 1).refs, (s.shared.queries 1).canceled)) = some (1, 1, 1, 1) := rfl
  obtain ⟨s, executed, left⟩ := Option.map_eq_some_iff.mp executed
  simp only [Prod.mk.injEq] at left
  have run := Program.execWhere_reaches executed
  exact ⟨s, run, left.1, left.2.1, left.2.2.1, left.2.2.2, (query_released run 0).1,
    (query_released run 1).2.1⟩

/-- The second query is completed between its section and the write of its status; then it is
cancelled while notice_user is at it. -/
def lateStatus : List (Event Nat Nat ⊕ Nat × Answer) :=
  let now : Answer := ⟨⟨7, 0⟩, true⟩
  List.flatten [
    [.inl (.get true 0 (.name ['a']) false false none)], Program.turns 0 6 now,
    [.inl (.get true 1 (.name ['a']) false false none), .inr (1, now),
      .inl (.callback 0 none), .inr (2, now), .inl (.callback 0 none), .inr (3, now)],
    Program.turns 1 2 now, [.inl (.cancel 1)], Program.turns 4 3 now, [.inr (3, now)]]

theorem query_released_twice : ∃ s : Config (DnsPrivate Nat Nat) (Call Nat Nat),
    (dns Nat Nat .atPush).Reaches ⟨initial, []⟩ s ∧ (s.shared.queries 1).refs = 1 ∧
      (s.shared.queries 1).noticed = 1 ∧ (s.shared.queries 1).canceled = 1 ∧
      (s.shared.queries 1).strays = 1 := by
  have executed : ((dns Nat Nat .atPush).exec (fun _ => True) lateStatus ⟨initial, []⟩).map
      (fun s => ((s.shared.queries 1).refs, (s.shared.queries 1).noticed,
        (s.shared.queries 1).canceled, (s.shared.queries 1).strays)) = some (1, 1, 1, 1) := rfl
  obtain ⟨s, executed, left⟩ := Option.map_eq_some_iff.mp executed
  simp only [Prod.mk.injEq] at left
  exact ⟨s, (Program.exec_reaches executed).reaches, left⟩

end MoonInWater.Dns
