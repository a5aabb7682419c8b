import MoonInWater.Dns.Status

/-! Where the reference of a query is: with its domain while it waits, in a list that a
notice_user walks, with the cancel_query that took it off its list, or dropped. -/
namespace MoonInWater.Dns
open Threads
open RingBuffer (TimeVal)
variable {Q A : Type} [DecidableEq Q] {g g' : DnsPrivate Q A} {l l' : Call Q A} {q : Q} {d : Nat}

def Batch.held (q : Q) (b : Batch Q) : Nat := b.pQuery.toList.count q + b.rest.count q

/-- How often the query stands in lists that are walked. -/
def held (g : DnsPrivate Q A) (q : Q) : Nat := (g.batches.map (Batch.held q)).sum

/-- How often the query waits for its domain. -/
def waits (g : DnsPrivate Q A) (q : Q) : Nat :=
  (g.queries q).pDomain.elim 0 fun d => (g.domains d).queries.count q

/-- The call has taken the query off its list and is to drop the reference. -/
def Call.dropping (q : Q) : Call Q A → Nat
  | .cancel q' .drop => if q' = q then 1 else 0
  | _ => 0

def Call.gets (q : Q) : Call Q A → Nat
  | .get c => if c.query = q then 1 else 0
  | _ => 0

/-- The query with the sums of its calls. -/
structure QueryInv (g : DnsPrivate Q A) (dropping calls : Nat) (q : Q) : Prop where
  refs : (g.queries q).refs = waits g q + held g q + dropping +
    (g.queries q).noticed + (g.queries q).canceled
  once : (g.queries q).refs ≤ 1
  home : ∀ d, q ∈ (g.domains d).queries → (g.queries q).pDomain = some d
  linked : ∀ d, (g.queries q).pDomain = some d →
    ((g.queries q).status = 0 ↔ q ∈ (g.domains d).queries)
  strays : (g.queries q).strays = 0
  own : calls ≤ 1
  unused : (g.queries q).used = false → calls = 0 ∧ g.queries q = freshQuery

/-- A query that no section has seen. -/
def Untouched (query : Query) : Prop :=
  query.pDomain = none ∧ query.refs = 0

/-- What the calls rely on. -/
def Call.Good (g : DnsPrivate Q A) : Call Q A → Prop
  | .get c =>
    match c.pc with
    | .lock => c.addQuery = false ∧ c.newAddrs = none ∧ Untouched (g.queries c.query) ∧
        (g.queries c.query).initDone = false ∧ (g.queries c.query).status = 0
    | .setStatus => (g.queries c.query).initDone = false ∧
        (c.addQuery = false → Untouched (g.queries c.query)) ∧
        (c.newAddrs.isSome → c.addQuery = false)
    | .initDone => (g.queries c.query).initDone = false ∧
        (c.newAddrs.isSome → Untouched (g.queries c.query))
    | .notice => Untouched (g.queries c.query)
    | _ => True
  | .cancel q _ => (g.queries q).initDone = true ∧ (g.queries q).pDomain.isSome
  | _ => True

/-- The status of a query is only reset while the query still waits. -/
def Call.resets (g : DnsPrivate Q A) : Call Q A → Bool
  | .get c => c.pc = .setStatus ∧ c.addQuery ∧ (g.queries c.query).status ≠ 0
  | _ => false

variable {dropping calls n m : Nat}

/-- A step that is about other queries. -/
theorem QueryInv.other (inv : QueryInv g n m q) (query : g'.queries q = g.queries q)
    (counts : ∀ d, (g'.domains d).queries.count q = (g.domains d).queries.count q)
    (kept : held g' q = held g q) : QueryInv g' n m q := by
  have members : ∀ d, q ∈ (g'.domains d).queries ↔ q ∈ (g.domains d).queries := fun d => by
    rw [← List.count_pos_iff, counts, List.count_pos_iff]
  have waiting : waits g' q = waits g q := by
    unfold waits
    rw [query]
    cases (g.queries q).pDomain with
    | none => rfl
    | some d => exact counts d
  refine ⟨?_, ?_, fun d => ?_, fun d => ?_, ?_, inv.own, ?_⟩
  · rw [query, waiting, kept]
    exact inv.refs
  · rw [query]
    exact inv.once
  · rw [members, query]
    exact inv.home d
  · rw [members, query]
    exact inv.linked d
  · rw [query]
    exact inv.strays
  · rw [query]
    exact inv.unused

/-- No list holds a query without a reference. -/
theorem QueryInv.untouched (inv : QueryInv g n m q) (untouched : Untouched (g.queries q)) :
    (∀ d, q ∉ (g.domains d).queries) ∧ held g q = 0 ∧ n = 0 ∧ (g.queries q).noticed = 0 ∧
      (g.queries q).canceled = 0 := by
  obtain ⟨none, zero⟩ := untouched
  have refs := inv.refs
  refine ⟨fun d member => ?_, by omega, by omega, by omega, by omega⟩
  have home := inv.home d member
  rw [none] at home
  contradiction

/-- The lists of waiting queries are as they were. -/
structure Still (g g' : DnsPrivate Q A) : Prop where
  queries : g'.queries = g.queries
  batches : g'.batches = g.batches
  waiting : ∀ d, (g'.domains d).queries = (g.domains d).queries

omit [DecidableEq Q] in
theorem Still.refl (g : DnsPrivate Q A) : Still g g := ⟨rfl, rfl, fun _ => rfl⟩

omit [DecidableEq Q] in
theorem Still.trans {g'' : DnsPrivate Q A} (first : Still g g') (second : Still g' g'') :
    Still g g'' :=
  ⟨second.queries.trans first.queries, second.batches.trans first.batches,
    fun d => (second.waiting d).trans (first.waiting d)⟩

omit [DecidableEq Q] in
theorem Still.of_change {dom : Domain Q A} (domains : g'.domains = Function.update g.domains d dom)
    (waiting : dom.queries = (g.domains d).queries) (queries : g'.queries = g.queries)
    (batches : g'.batches = g.batches) : Still g g' := by
  refine ⟨queries, batches, fun e => ?_⟩
  rw [domains]
  by_cases same : e = d
  · rw [same, Function.update_self, waiting]
  · rw [Function.update_of_ne same]

omit [DecidableEq Q] in
theorem Still.of_domains (domains : g'.domains = g.domains) (queries : g'.queries = g.queries)
    (batches : g'.batches = g.batches) : Still g g' :=
  ⟨queries, batches, fun d => by rw [domains]⟩

theorem Still.inv (still : Still g g') (inv : QueryInv g n m q) : QueryInv g' n m q :=
  inv.other (by rw [still.queries]) (fun d => by rw [still.waiting])
    (by rw [held, still.batches]; rfl)

omit [DecidableEq Q] in
theorem request_still {c c' : Get Q A} (addQuery : c.addQuery = false) (newAddrs : c.newAddrs = none)
    (requested : request g c d = some (g', c')) : Still g g' ∧ c'.query = c.query ∧
      c'.domain = c.domain ∧ (c'.newAddrs.isSome → c'.addQuery = false) := by
  have none : c.newAddrs.isSome → ∀ b, b = false := fun some => by simp [newAddrs] at some
  simp only [request] at requested
  split at requested
  · cases requested
    exact ⟨.of_change rfl rfl rfl rfl, rfl, rfl, fun some => none some _⟩
  · split at requested
    · cases requested
      exact ⟨.refl g, rfl, rfl, fun some => none some _⟩
    · split at requested
      · obtain ⟨clear, _, requested⟩ := Option.bind_eq_some_iff.mp requested
        obtain ⟨refresh, _, requested⟩ := Option.bind_eq_some_iff.mp requested
        split at requested
        · cases requested
          exact ⟨.of_change rfl rfl rfl rfl, rfl, rfl, fun some => none some _⟩
        · split at requested
          · cases requested
            exact ⟨.of_change rfl rfl rfl rfl, rfl, rfl, fun some => none some _⟩
          · cases requested
            exact ⟨.refl g, rfl, rfl, fun _ => addQuery⟩
      · cases requested
        exact ⟨.refl g, rfl, rfl, fun _ => addQuery⟩

/-- What the section of moon_getaddrinfo does to the lists of queries. -/
theorem getSection_waiting {c c' : Get Q A} {alloc : Bool} {name : List Char}
    (fresh : (g.domains g.fresh).queries = []) (addQuery : c.addQuery = false)
    (newAddrs : c.newAddrs = none) (ran : getSection alloc g c name = some (g', c')) :
    c'.query = c.query ∧ (c'.newAddrs.isSome → c'.addQuery = false) ∧
      ∃ g₁, Still g g₁ ∧
        (c'.addQuery = false ∧ g' = g₁ ∨
          c'.addQuery = true ∧ ∃ d, g' = addWaiting g₁ c.query d) := by
  have found : ∀ {g₁ : DnsPrivate Q A} {d : Nat}, hashSearch alloc g name = (g₁, some d) →
      Still g g₁ → c'.query = c.query ∧ (c'.newAddrs.isSome → c'.addQuery = false) ∧
        ∃ g₁, Still g g₁ ∧ (c'.addQuery = false ∧ g' = g₁ ∨
          c'.addQuery = true ∧ ∃ d, g' = addWaiting g₁ c.query d) := by
    intro g₁ d found first
    simp only [getSection, found] at ran
    obtain ⟨⟨g₂, c₂⟩, requested, waits⟩ := Option.bind_eq_some_iff.mp ran
    obtain ⟨second, query, _, news⟩ := request_still (by exact addQuery) (by exact newAddrs) requested
    cases waits
    refine ⟨query, news, g₂, first.trans second, ?_⟩
    cases add : c₂.addQuery with
    | false => exact .inl ⟨rfl, if_neg Bool.false_ne_true⟩
    | true =>
      refine .inr ⟨rfl, d, (if_pos rfl).trans ?_⟩
      exact congrArg (addWaiting g₂ · d) query
  rcases hashSearch_cases alloc g name with failed | ⟨d, _, old⟩ | made
  · simp only [getSection, failed] at ran
    cases ran
    exact ⟨rfl, fun _ => addQuery, g, .refl g, .inl ⟨addQuery, rfl⟩⟩
  · exact found old (.refl g)
  · have domains : (hashSearch alloc g name).1.domains =
        Function.update g.domains g.fresh (freshDomain name) := by rw [made]; rfl
    exact found made (.of_change rfl fresh.symm rfl rfl)

/-- A query comes to wait: it has a reference more. -/
theorem addWaiting_inv_query (inv : QueryInv g n m q) {q' : Q} (d : Nat)
    (untouched : Untouched (g.queries q')) (zero : (g.queries q').status = 0)
    (used : (g.queries q').used = true) : QueryInv (addWaiting g q' d) n m q := by
  have self : (addWaiting g q' d).domains d =
      { g.domains d with queries := q' :: (g.domains d).queries } := setDomain_self _
  by_cases same : q = q'
  · subst same
    obtain ⟨nowhere, free, none, noticed, canceled⟩ := inv.untouched untouched
    have query : (addWaiting g q d).queries q =
        { g.queries q with pDomain := some d, refs := (g.queries q).refs + 1 } :=
      Function.update_self ..
    have refs := untouched.2
    have waiting : ∀ e, q ∈ ((addWaiting g q d).domains e).queries ↔ e = d := fun e => by
      by_cases same : e = d
      · subst same
        rw [self]
        exact iff_of_true List.mem_cons_self rfl
      · refine iff_of_false ?_ same
        rw [show (addWaiting g q d).domains e = g.domains e from setDomain_of_ne _ same]
        exact nowhere e
    have once : waits (addWaiting g q d) q = 1 := by
      simp only [waits, query, Option.elim_some, self, List.count_cons_self]
      rw [List.count_eq_zero.mpr (nowhere d)]
    have kept : held (addWaiting g q d) q = 0 := free
    refine ⟨?_, ?_, fun e member => ?_, fun e home => ?_, ?_, inv.own, ?_⟩
    · rw [once, kept, query]
      dsimp only
      omega
    · rw [query]
      dsimp only
      omega
    · rw [query, (waiting e).mp member]
    · rw [query] at home ⊢
      rw [waiting]
      exact iff_of_true zero (Option.some.inj home).symm
    · rw [query]
      exact inv.strays
    · rw [query]
      exact fun unused => absurd used (by simp [show (g.queries q).used = false from unused])
  · refine inv.other (Function.update_of_ne same ..) (fun e => ?_) rfl
    by_cases here : e = d
    · subst here
      rw [self]
      exact List.count_cons_of_ne (Ne.symm same)
    · rw [show (addWaiting g q' d).domains e = g.domains e from setDomain_of_ne _ here]

theorem count_head_tail (l : List Q) (q : Q) :
    l.head?.toList.count q + l.tail.count q = l.count q := by
  cases l with
  | nil => rfl
  | cons p l => simp [List.count_cons, Nat.add_comm]

theorem held_append {b : Batch Q} (batches : g'.batches = g.batches ++ [b]) :
    held g' q = held g q + b.held q := by
  rw [held, batches, List.map_append, List.sum_append]
  simp [held]

/-- The queries of a domain are told: they go over to a list that is walked. -/
theorem settle_inv (inv : QueryInv g n m q) (now : TimeVal) (addrs : Option (Addrs A)) :
    QueryInv (settle now g d addrs) n m q := by
  have self : ((settle now g d addrs).domains d).queries = [] :=
    congrArg Domain.queries (setDomain_self _)
  have other : ∀ e ≠ d, ((settle now g d addrs).domains e).queries = (g.domains e).queries :=
    fun e apart => congrArg Domain.queries (setDomain_of_ne _ apart)
  have kept : held (settle now g d addrs) q = held g q + (g.domains d).queries.count q := by
    rw [held_append (g := g) (b := ⟨(g.domains d).queries.head?, (g.domains d).queries.tail⟩) rfl,
      ← count_head_tail]
    rfl
  by_cases member : q ∈ (g.domains d).queries
  · have home := inv.home d member
    have query : (settle now g d addrs).queries q = { g.queries q with status := 1 } := if_pos member
    have waiting : waits g q = (g.domains d).queries.count q := by
      rw [waits, home, Option.elim_some]
    have none : waits (settle now g d addrs) q = 0 := by
      rw [waits, query]
      dsimp only
      rw [home, Option.elim_some, self, List.count_nil]
    have refs := inv.refs
    refine ⟨?_, ?_, fun e inList => ?_, fun e home' => ?_, ?_, inv.own, fun unused => ?_⟩
    · rw [none, kept, query]
      dsimp only
      omega
    · rw [query]
      exact inv.once
    · by_cases same : e = d
      · rw [same, self] at inList
        contradiction
      · rw [other e same] at inList
        rw [query]
        exact inv.home e inList
    · rw [query] at home' ⊢
      have same : d = e := Option.some.inj (home.symm.trans home')
      rw [← same, self]
      exact iff_of_false Int.one_ne_zero List.not_mem_nil
    · rw [query]
      exact inv.strays
    · rw [query] at unused
      rw [(inv.unused unused).2] at home
      contradiction
  · refine inv.other (if_neg member) (fun e => ?_) ?_
    · by_cases same : e = d
      · rw [same, self, List.count_nil, List.count_eq_zero.mpr member]
      · rw [other e same]
    · rw [kept, List.count_eq_zero.mpr member, Nat.add_zero]

omit [DecidableEq Q] in
theorem evict_still (g : DnsPrivate Q A) : Still g (evict g).1 := by
  unfold evict
  split
  · exact .refl g
  · dsimp only
    split
    · exact .of_domains rfl rfl rfl
    · exact .of_change rfl rfl rfl rfl

theorem complete_inv (inv : QueryInv g n m q) (now : TimeVal) (addrs : Option (Addrs A)) :
    QueryInv (complete now g d addrs).1 n m q := by
  have settled : QueryInv (settle now g d addrs) n m q := settle_inv inv now addrs
  simp only [complete]
  split
  · have added : Still (settle now g d addrs) (ageAdd d (settle now g d addrs)) :=
      .of_domains rfl rfl rfl
    split
    · exact (added.trans (evict_still _)).inv settled
    · exact added.inv settled
  · have deleted : Still (settle now g d addrs) (hashDel d (settle now g d addrs)) :=
      .of_domains rfl rfl rfl
    exact deleted.inv settled

theorem callbackSection_inv (inv : QueryInv g n m q) (now : TimeVal)
    (addrs : Option (Addrs A)) : QueryInv (callbackSection now g d addrs).1 n m q := by
  have aged : Still g (ageDel d g) := .of_domains rfl rfl rfl
  simp only [callbackSection]
  split
  · have first : Still g (g.setDomain d { g.domains d with
        pNewAddrs := addrs, status := (g.domains d).status + 1 }) := .of_change rfl rfl rfl rfl
    exact first.inv inv
  · split
    · exact complete_inv (aged.inv inv) now addrs
    · split
      · exact complete_inv inv now addrs
      · exact inv

omit [DecidableEq Q] in
theorem expire_still {cut : TimeVal} {l dels dels' : List Nat}
    (ran : expire cut l g dels = some (g', dels')) : Still g g' := by
  induction l generalizing g dels with
  | nil =>
    cases ran
    exact .refl _
  | cons d rest ih =>
    obtain ⟨addrs, has, _⟩ := Option.bind_eq_some_iff.mp ran
    rw [expire_cons has] at ran
    split at ran
    · split at ran
      · have first : Still g (hashDel d (ageDel d g)) := .of_domains rfl rfl rfl
        exact first.trans (ih ran)
      · have first : Still g ((ageDel d g).setDomain d { g.domains d with
            status := (g.domains d).status - domainQuery2 }) := .of_change rfl rfl rfl rfl
        exact first.trans (ih ran)
    · cases ran
      exact .refl _

/-- A reference goes over from one holder to the next, away from the waiting lists. -/
theorem QueryInv.hand (inv : QueryInv g n m q) {query : Query} (now : g'.queries q = query)
    (pDomain : query.pDomain = (g.queries q).pDomain) (refs : query.refs = (g.queries q).refs)
    (strays : query.strays = (g.queries q).strays)
    (status : (g.queries q).pDomain.isSome → (query.status = 0 ↔ (g.queries q).status = 0))
    (used : query.used = true) (waiting : ∀ d, (g'.domains d).queries = (g.domains d).queries)
    (sum : held g' q + n' + query.noticed + query.canceled =
      held g q + n + (g.queries q).noticed + (g.queries q).canceled) : QueryInv g' n' m q := by
  have same : waits g' q = waits g q := by
    unfold waits
    rw [now, pDomain]
    cases (g.queries q).pDomain with
    | none => rfl
    | some d => exact congrArg (List.count q) (waiting d)
  have total := inv.refs
  refine ⟨?_, ?_, fun d member => ?_, fun d home => ?_, ?_, inv.own, fun unused => ?_⟩
  · rw [same, now, refs]
    omega
  · rw [now, refs]
    exact inv.once
  · rw [now, pDomain]
    exact inv.home d (waiting d ▸ member)
  · rw [now, pDomain] at home
    rw [waiting, now]
    exact (status (by rw [home]; rfl)).trans (inv.linked d home)
  · rw [now, strays]
    exact inv.strays
  · rw [now, used] at unused
    contradiction

/-- A query that a list or a call holds has been given to moon_getaddrinfo. -/
theorem QueryInv.used (inv : QueryInv g n m q)
    (some : 0 < m ∨ (g.queries q).refs ≠ 0 ∨ (g.queries q).pDomain.isSome) :
    (g.queries q).used = true := by
  by_contra other
  obtain ⟨none, fresh⟩ := inv.unused (Bool.eq_false_iff.mpr other)
  rw [fresh, none] at some
  rcases some with some | some | some
  · exact Nat.lt_irrefl _ some
  · exact some rfl
  · contradiction

omit [DecidableEq Q] in
theorem sum_set (f : Batch Q → Nat) {l : List (Batch Q)} {b : Nat} {x y : Batch Q}
    (found : l[b]? = some x) : ((l.set b y).map f).sum + f x = (l.map f).sum + f y := by
  induction l generalizing b with
  | nil => contradiction
  | cons z l ih =>
    cases b with
    | zero =>
      cases found
      simp only [List.set_cons_zero, List.map_cons, List.sum_cons]
      omega
    | succ b =>
      have rest := ih (b := b) found
      simp only [List.set_cons_succ, List.map_cons, List.sum_cons]
      omega

/-- A turn of notice_user drops the reference of the query it stands on. -/
theorem noticeUser_inv (inv : QueryInv g n m q) {b : Nat} (told : noticeUser g b = some g') :
    QueryInv g' n m q := by
  unfold noticeUser at told
  split at told
  next q' rest found =>
    cases told
    have moved := sum_set (Batch.held q) (y := ⟨rest.head?, rest.tail⟩) found
    have before : Batch.held q ⟨some q', rest⟩ = (if q' = q then 1 else 0) + rest.count q := by
      simp only [Batch.held, Option.toList_some, List.count_singleton, beq_iff_eq]
    have after : Batch.held q ⟨rest.head?, rest.tail⟩ = rest.count q := count_head_tail rest q
    rw [before, after] at moved
    by_cases same : q = q'
    · subst same
      rw [if_pos rfl] at moved
      have refs := inv.refs
      have lists : (List.map (Batch.held q) g.batches).sum = held g q := rfl
      have used : (g.queries q).used = true := inv.used (.inr (.inl (by omega)))
      refine inv.hand (Function.update_self ..) rfl rfl rfl (fun _ => Iff.rfl) used
        (fun _ => rfl) ?_
      simp only [held] at moved ⊢
      omega
    · rw [if_neg (Ne.symm same)] at moved
      refine inv.other (Function.update_of_ne same ..) (fun _ => rfl) ?_
      simp only [held] at moved ⊢
      omega
  next => contradiction

/-- The deletion of a query that no walked list holds leaves these lists alone. -/
theorem dlistDel_free {bs : List (Batch Q)} (free : (bs.map (Batch.held q)).sum = 0) :
    bs.map (Batch.dlistDel q) = bs := by
  induction bs with
  | nil => rfl
  | cons b bs ih =>
    rw [List.map_cons, List.sum_cons, Nat.add_eq_zero_iff] at free
    obtain ⟨first, rest⟩ := free
    have apart : b.pQuery ≠ some q ∧ q ∉ b.rest := by
      rw [Batch.held, Nat.add_eq_zero_iff, List.count_eq_zero, List.count_eq_zero] at first
      exact ⟨fun same => first.1 (by simp [same]), first.2⟩
    have same : b.dlistDel q = b := by
      rw [Batch.dlistDel, if_neg apart.1, List.erase_of_not_mem apart.2]
    rw [List.map_cons, ih rest, same]

section
variable {n m : Q → Nat}

theorem cancelStep_inv {q' : Q} {pc pc' : CancelPc}
    (inv : ∀ q, QueryInv g ((Call.cancel q' pc : Call Q A).dropping q + n q) (m q) q)
    (good : (Call.cancel q' pc : Call Q A).Good g) (acted : cancelStep g q' pc = some (g', pc'))
    (q : Q) : QueryInv g' ((Call.cancel q' pc' : Call Q A).dropping q + n q) (m q) q := by
  have used : (g.queries q').used = true := (inv q').used (.inr (.inr good.2))
  cases pc with
  | done => contradiction
  | look =>
    cases acted
    have none : ∀ p : Prop, [Decidable p] →
        (Call.cancel q' (if p then .done else .lock) : Call Q A).dropping q = 0 := by
      intro p _
      split <;> rfl
    rw [none]
    exact inv q
  | drop =>
    cases acted
    by_cases same : q = q'
    · subst same
      refine (inv q).hand (Function.update_self ..) rfl rfl rfl (fun _ => Iff.rfl) used
        (fun _ => rfl) ?_
      simp only [held, Call.dropping, if_true, DnsPrivate.setQuery]
      omega
    · have other : (Call.cancel q' .drop : Call Q A).dropping q = 0 := if_neg (Ne.symm same)
      have before := inv q
      rw [other] at before
      exact before.other (Function.update_of_ne same ..) (fun _ => rfl) rfl
  | lock =>
    simp only [cancelStep] at acted
    split at acted
    next zero =>
      obtain ⟨d, home, moved⟩ := Option.bind_eq_some_iff.mp acted
      have member : q' ∈ (g.domains d).queries := ((inv q').linked d home).mp zero
      rw [if_pos member] at moved
      cases moved
      have waiting : waits g q' = (g.domains d).queries.count q' := by
        rw [waits, home, Option.elim_some]
      have positive := List.count_pos_iff.mpr member
      have refs := (inv q').refs
      have once := (inv q').once
      have free : held g q' = 0 := by omega
      have lists : g.batches.map (Batch.dlistDel q') = g.batches := dlistDel_free free
      by_cases same : q = q'
      · subst same
        have query : ((queryDel q g).setQuery q { g.queries q with
            status := 1, strays := (g.queries q).strays }).queries q =
          { g.queries q with status := 1, strays := (g.queries q).strays } := Function.update_self ..
        have gone : ∀ e, q ∉ ((g.domains e).queries).erase q := fun e => by
          rw [← List.count_pos_iff, List.count_erase_self]
          by_cases here : e = d
          · subst here
            omega
          · have none : (g.domains e).queries.count q = 0 := by
              refine List.count_eq_zero.mpr fun there => here ?_
              exact Option.some.inj (((inv q).home e there).symm.trans home)
            omega
        refine ⟨?_, ?_, fun e there => absurd there (gone e), fun e home' => ?_, ?_, (inv q).own,
          fun unused => ?_⟩
        · have kept : held ((queryDel q g).setQuery q { g.queries q with
              status := 1, strays := (g.queries q).strays }) q = held g q :=
            congrArg (fun bs => (bs.map (Batch.held q)).sum) lists
          rw [kept, waits, query]
          dsimp only
          rw [home, Option.elim_some]
          have none : (((g.domains d).queries).erase q).count q = 0 :=
            List.count_eq_zero.mpr (gone d)
          simp only [DnsPrivate.setQuery, queryDel, none, Call.dropping, if_true] at refs ⊢
          omega
        · rw [query]
          exact once
        · rw [query]
          exact iff_of_false Int.one_ne_zero (gone e)
        · rw [query]
          exact (inv q).strays
        · rw [query] at unused
          exact absurd used (by simp [show (g.queries q).used = false from unused])
      · have none : (Call.cancel q' .drop : Call Q A).dropping q = 0 := if_neg (Ne.symm same)
        rw [none]
        refine (inv q).other (Function.update_of_ne same ..) (fun e => ?_) ?_
        · exact List.count_erase_of_ne same
        · exact congrArg (fun bs => (bs.map (Batch.held q)).sum) lists
    next =>
      cases acted
      exact inv q

/-- A write to the query of a call of moon_getaddrinfo that no list notices. -/
theorem setQuery_inv (inv : ∀ q, QueryInv g (n q) (m q) q) {q' : Q} (query : Query)
    (pDomain : query.pDomain = (g.queries q').pDomain) (refs : query.refs = (g.queries q').refs)
    (noticed : query.noticed = (g.queries q').noticed)
    (canceled : query.canceled = (g.queries q').canceled)
    (strays : query.strays = (g.queries q').strays)
    (status : (g.queries q').pDomain.isSome → (query.status = 0 ↔ (g.queries q').status = 0))
    (used : query.used = true) (q : Q) : QueryInv (g.setQuery q' query) (n q) (m q) q := by
  by_cases same : q = q'
  · subst same
    refine (inv q).hand (Function.update_self ..) pDomain refs strays status used (fun _ => rfl) ?_
    rw [noticed, canceled]
    rfl
  · exact (inv q).other (Function.update_of_ne same ..) (fun _ => rfl) rfl

/-- A query whose addresses are in the cache is put on a list of its own. -/
theorem noticeSelf_inv {n m : Nat} (inv : QueryInv g n m q) {q' : Q}
    (untouched : Untouched (g.queries q')) (used : (g.queries q').used = true) :
    QueryInv { g.setQuery q' { g.queries q' with refs := (g.queries q').refs + 1 } with
      batches := g.batches ++ [⟨some q', []⟩] } n m q := by
  set told : DnsPrivate Q A :=
    { g.setQuery q' { g.queries q' with refs := (g.queries q').refs + 1 } with
      batches := g.batches ++ [⟨some q', []⟩] } with is
  have kept : held told q = held g q + if q' = q then 1 else 0 := by
    have added : told.batches = g.batches ++ [⟨some q', []⟩] := rfl
    rw [held_append added]
    simp only [Batch.held, Option.toList_some, List.count_singleton, beq_iff_eq, List.count_nil,
      Nat.add_zero]
  by_cases same : q = q'
  · subst same
    obtain ⟨nowhere, free, none, noticed, canceled⟩ := inv.untouched untouched
    have query : told.queries q = { g.queries q with refs := (g.queries q).refs + 1 } :=
      Function.update_self ..
    have refs := untouched.2
    have home := untouched.1
    have waiting : waits told q = 0 := by
      rw [waits, query]
      dsimp only
      rw [home, Option.elim_none]
    rw [if_pos rfl] at kept
    refine ⟨?_, ?_, fun d there => absurd there (nowhere d), fun d home' => ?_, ?_, inv.own,
      fun unused => ?_⟩
    · rw [waiting, kept, query]
      dsimp only
      omega
    · rw [query]
      dsimp only
      omega
    · rw [query] at home'
      exact absurd (home.symm.trans home') (by simp)
    · rw [query]
      exact inv.strays
    · rw [query] at unused
      exact absurd used (by simp [show (g.queries q).used = false from unused])
  · rw [if_neg (Ne.symm same)] at kept
    exact inv.other (Function.update_of_ne same ..) (fun _ => rfl) kept

theorem getStep_inv {c c' : Get Q A} {a : Answer} {grant : Grant}
    (inv : ∀ q, QueryInv g (n q) ((Call.get c).gets q + m q) q) (good : (Call.get c).Good g)
    (fresh : (g.domains g.fresh).queries = []) (careful : (Call.get c).resets g = false)
    (acted : getStep grant a g c = some (g', c')) :
    c'.query = c.query ∧ (Call.get c').Good g' ∧
      ∀ q, QueryInv g' (n q) ((Call.get c).gets q + m q) q := by
  have used : (g.queries c.query).used = true :=
    (inv c.query).used (.inl (by simp [Call.gets]))
  have self : ∀ query : Query, (g.setQuery c.query query).queries c.query = query :=
    fun query => Function.update_self ..
  cases pc : c.pc with
  | done ret => simp only [getStep, pc, reduceCtorEq] at acted
  | lock =>
    simp only [Call.Good, pc] at good
    obtain ⟨addQuery, newAddrs, untouched, initDone, zero⟩ := good
    simp only [getStep, pc] at acted
    split at acted
    next name _ =>
      obtain ⟨⟨g₂, c₂⟩, ran, same⟩ := Option.map_eq_some_iff.mp acted
      cases same
      obtain ⟨query, news, g₁, still, ⟨old, rfl⟩ | ⟨add, d, rfl⟩⟩ :=
        getSection_waiting fresh addQuery newAddrs ran
      · refine ⟨query, ?_, fun q => still.inv (inv q)⟩
        simp only [Call.Good, query, still.queries]
        exact ⟨initDone, fun _ => untouched, news⟩
      · have kept : ∀ q, QueryInv (addWaiting g₁ c.query d) (n q) ((Call.get c).gets q + m q) q := by
          intro q
          refine addWaiting_inv_query (still.inv (inv q)) d ?_ ?_ ?_
          all_goals rw [still.queries]
          · exact untouched
          · exact zero
          · exact used
        refine ⟨query, ?_, kept⟩
        have now : (addWaiting g₁ c.query d).queries c.query = { g₁.queries c.query with
          pDomain := some d, refs := (g₁.queries c.query).refs + 1 } := Function.update_self ..
        simp only [Call.Good, query, now, still.queries]
        exact ⟨initDone, fun none => absurd (add.symm.trans none) (by simp), news⟩
    next addr _ =>
      cases acted
      have kept : ∀ q, QueryInv (g.setQuery c.query { g.queries c.query with status := 1 })
          (n q) ((Call.get c).gets q + m q) q :=
        setQuery_inv inv _ rfl rfl rfl rfl rfl (fun some => absurd some (by simp [untouched.1])) used
      split
      all_goals
        refine ⟨rfl, ?_, kept⟩
        simp only [Call.Good, self]
        exact ⟨initDone, fun _ => untouched⟩
  | setStatus =>
    simp only [Call.Good, pc] at good
    obtain ⟨initDone, old, news⟩ := good
    simp only [getStep, pc] at acted
    cases acted
    refine ⟨rfl, ?_, ?_⟩
    · simp only [Call.Good, self]
      exact ⟨initDone, fun some => old (news some)⟩
    · refine setQuery_inv inv _ rfl rfl rfl rfl rfl (fun home => ?_) used
      cases add : c.addQuery with
      | false =>
        rw [(old add).1] at home
        contradiction
      | true =>
        have zero : (g.queries c.query).status = 0 := by
          simpa [Call.resets, pc, add] using careful
        rw [if_pos rfl, zero]
  | initDone =>
    simp only [Call.Good, pc] at good
    obtain ⟨_, old⟩ := good
    simp only [getStep, pc] at acted
    cases acted
    refine ⟨rfl, ?_, setQuery_inv inv _ rfl rfl rfl rfl rfl (fun _ => Iff.rfl) used⟩
    cases some : c.newAddrs.isSome with
    | true =>
      simp only [Call.Good, self, if_true]
      exact old some
    | false =>
      rw [if_neg Bool.false_ne_true]
      cases c.isNew with
      | true => exact trivial
      | false => exact trivial
  | notice =>
    simp only [Call.Good, pc] at good
    simp only [getStep, pc] at acted
    cases acted
    exact ⟨rfl, trivial, fun q => noticeSelf_inv (inv q) good used⟩
  | noticeUser b =>
    simp only [getStep, pc] at acted
    split at acted
    next told =>
      cases acted
      refine ⟨rfl, ?_, fun q => noticeUser_inv (inv q) told⟩
      simp only [Call.Good, pc]
    next =>
      cases acted
      exact ⟨rfl, trivial, inv⟩
  | readCares =>
    simp only [getStep, pc] at acted
    cases acted
    exact ⟨rfl, trivial, inv⟩
  | linkCares tmp =>
    simp only [getStep, pc] at acted
    obtain ⟨d, _, acted⟩ := Option.bind_eq_some_iff.mp acted
    cases acted
    have still : Still g (g.setDomain d { g.domains d with next := tmp }) :=
      .of_change rfl rfl rfl rfl
    exact ⟨rfl, trivial, fun q => still.inv (inv q)⟩
  | casCares tmp =>
    simp only [getStep, pc] at acted
    obtain ⟨d, _, acted⟩ := Option.bind_eq_some_iff.mp acted
    split at acted
    · cases acted
      refine ⟨rfl, trivial, fun q => ?_⟩
      split
      all_goals
        refine Still.inv (g := g) ?_ (inv q)
        exact .of_domains rfl rfl rfl
    · cases acted
      exact ⟨rfl, trivial, inv⟩

end

end MoonInWater.Dns
