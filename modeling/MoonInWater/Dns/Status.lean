import MoonInWater.Dns.Cache

/-! The sections as steps of their calls, and over whole runs the callbacks that each
domain of the table still waits for. -/
namespace MoonInWater.Dns
open Threads
open RingBuffer (TimeVal)
variable {Q A : Type} {g g' : DnsPrivate Q A} {d e : Nat} {due due' : Nat → Nat} {grant : Grant}

/-- The domain of the call has been given its status, and is not yet queued. -/
def GetPc.asking : GetPc → Bool
  | .setStatus | .initDone | .readCares | .linkCares _ | .casCares _ => true
  | _ => false

/-- The callbacks that rest with the call: two for a new request, one that has not yet
come to its section. -/
def Call.asks (d : Nat) : Call Q A → Nat
  | .get c => if c.pc.asking then c.asks d else 0
  | .callback e _ .lock => if e = d then 1 else 0
  | _ => 0

attribute [simp] Call.asks

/-- The step to come is the section of moon_getaddrinfo or of domain_callback. -/
def Call.atSection : Call Q A → Bool
  | .get c => c.pc = .lock
  | .callback _ _ .lock => true
  | _ => false

structure Get.Ok (c : Get Q A) : Prop where
  atLock : c.pc = .lock → c.isNew = false ∧ c.addQuery = false ∧ c.newAddrs = none
  news : c.isNew = true → c.newAddrs = none ∧ c.domain.isSome
  queues : c.pc.asking = true → c.pc ≠ .setStatus → c.pc ≠ .initDone → c.isNew = true

def Call.Ok (g : DnsPrivate Q A) : Call Q A → Prop
  | .get c => c.Ok
  | .callback _ _ (.noticeUser _ del) | .callback _ _ (.free del) => Dooms g del
  | .task (.free dels) => ∀ d ∈ dels, Doomed g d
  | _ => True

theorem Call.Ok.mono {l : Call Q A} (ok : l.Ok g) (grows : Grows g g') : l.Ok g' := by
  unfold Call.Ok at ok ⊢
  split at ok
  · exact ok
  · exact fun d member => (ok d member).mono grows
  · exact fun d member => (ok d member).mono grows
  · exact fun d member => (ok d member).mono grows
  · trivial

/-- What a step does to the cache: a section changes the callbacks to come by what its
call takes on or gives up, any other step leaves them. -/
structure Kept (g g' : DnsPrivate Q A) (l l' : Call Q A) (due due' : Nat → Nat) : Prop where
  inv : CacheInv dnsCacheNum g' due'
  grows : Grows g g'
  ok : l'.Ok g'
  dues : ∀ d, due' d = if l.atSection then due d + l'.asks d - l.asks d else due d

/-- A step that no entry of the cache notices. -/
theorem Kept.same {l l' : Call Q A} (inv : CacheInv dnsCacheNum g due)
    (table : g'.table = g.table) (age : g'.age = g.age) (fresh : g'.fresh = g.fresh)
    (num : g'.domainNum = g.domainNum)
    (same : ∀ d, (g'.domains d).status = (g.domains d).status ∧
      (g'.domains d).pAddrs = (g.domains d).pAddrs ∧
      ((g.domains d).queries = [] → (g'.domains d).queries = []) ∧
      ((g'.domains d).freed = true → (g.domains d).freed = true ∨ Doomed g d))
    (ok : l'.Ok g') (outside : l.atSection = false) : Kept g g' l l' due due where
  inv := inv.congr table age fresh num same fun _ => rfl
  grows := ⟨Nat.le_of_eq fresh.symm, fun _ member => .inl (table ▸ member)⟩
  ok := ok
  dues _ := by rw [outside]; rfl

/-- Nothing of a domain changes. -/
theorem unchanged (domains : g'.domains = g.domains) (d : Nat) :
    (g'.domains d).status = (g.domains d).status ∧
      (g'.domains d).pAddrs = (g.domains d).pAddrs ∧
      ((g.domains d).queries = [] → (g'.domains d).queries = []) ∧
      ((g'.domains d).freed = true → (g.domains d).freed = true ∨ Doomed g d) := by
  rw [domains]
  exact ⟨rfl, rfl, id, .inl⟩

section
variable [DecidableEq Q]

theorem noticeUser_kept {b : Nat} (told : noticeUser g b = some g') :
    g'.table = g.table ∧ g'.age = g.age ∧ g'.fresh = g.fresh ∧ g'.domainNum = g.domainNum ∧
      g'.domains = g.domains ∧ g'.lookups = g.lookups := by
  unfold noticeUser at told
  split at told
  · cases told
    exact ⟨rfl, rfl, rfl, rfl, rfl, rfl⟩
  · contradiction

theorem getStep_kept {a : Answer} {c c' : Get Q A} (inv : CacheInv dnsCacheNum g due) (ok : c.Ok)
    (acted : getStep grant a g c = some (g', c')) :
    ∃ due', Kept g g' (.get c) (.get c') due due' := by
  have outside : c.pc ≠ .lock → (Call.get c).atSection = false := fun other => by
    simp only [Call.atSection, other, decide_false]
  cases at' : c.pc with
  | done ret => simp only [getStep, at', reduceCtorEq] at acted
  | lock =>
    obtain ⟨isNew, addQuery, newAddrs⟩ := ok.atLock at'
    have before : ∀ d, (Call.get c).asks d = 0 := fun d => by
      simp only [Call.asks, at', GetPc.asking, Bool.false_eq_true, if_false]
    simp only [getStep, at'] at acted
    split at acted
    next name _ =>
      obtain ⟨r, ran, grows, after, news⟩ := getSection_spec a.alloc name inv isNew addQuery newAddrs
      rw [ran, Option.map_some] at acted
      cases acted
      refine ⟨_, after, grows, ⟨(by simp), news, fun _ other => absurd rfl other⟩, fun d => ?_⟩
      rw [before, Nat.sub_zero]
      simp only [Call.atSection, at', decide_true, if_true, Call.asks, GetPc.asking]
      rfl
    next addr _ =>
      have done : c'.isNew = false ∧ c'.pc = .initDone ∧ g'.table = g.table ∧ g'.age = g.age ∧
          g'.fresh = g.fresh ∧ g'.domainNum = g.domainNum ∧ g'.domains = g.domains := by
        split at acted
        all_goals
          cases acted
          exact ⟨isNew, rfl, rfl, rfl, rfl, rfl, rfl⟩
      obtain ⟨old, pc, table, age, fresh, num, domains⟩ := done
      have after : ∀ d, (Call.get c').asks d = 0 := fun d => by
        simp only [Call.asks, Get.asks_old old, ite_self]
      refine ⟨due, inv.congr table age fresh num (unchanged domains) fun _ => rfl,
        ⟨Nat.le_of_eq fresh.symm, fun _ member => .inl (table ▸ member)⟩, ?_, fun d => ?_⟩
      · refine ⟨fun other => ?_, fun new => ?_, fun _ _ other => absurd pc other⟩
        · rw [pc] at other
          contradiction
        · cases old.symm.trans new
      · rw [before, after, Nat.add_zero, Nat.sub_zero, ite_self]
  | setStatus =>
    simp only [getStep, at'] at acted
    cases acted
    refine ⟨due, .same inv rfl rfl rfl rfl (unchanged rfl) ?_ (outside (by simp [at']))⟩
    exact ⟨(by simp), ok.news, fun _ _ other => absurd rfl other⟩
  | initDone =>
    simp only [getStep, at'] at acted
    cases acted
    refine ⟨due, .same inv rfl rfl rfl rfl (unchanged rfl) ?_ (outside (by simp [at']))⟩
    refine ⟨?_, ok.news, ?_⟩
    · dsimp only
      split
      · simp
      · split <;> simp
    · dsimp only
      split
      · rintro ⟨⟩
      · split
        · exact fun _ _ _ => ‹_›
        · rintro ⟨⟩
  | notice =>
    simp only [getStep, at'] at acted
    cases acted
    refine ⟨due, .same inv rfl rfl rfl rfl (unchanged rfl) ?_ (outside (by simp [at']))⟩
    exact ⟨(by simp), ok.news, (by rintro ⟨⟩)⟩
  | noticeUser b =>
    simp only [getStep, at'] at acted
    split at acted
    next told =>
      cases acted
      obtain ⟨table, age, fresh, num, domains, _⟩ := noticeUser_kept told
      refine ⟨due, .same inv table age fresh num (unchanged domains) ?_
        (outside (by simp [at']))⟩
      exact ok
    next =>
      cases acted
      refine ⟨due, .same inv rfl rfl rfl rfl (unchanged rfl) ?_ (outside (by simp [at']))⟩
      exact ⟨(by simp), ok.news, (by rintro ⟨⟩)⟩
  | readCares =>
    simp only [getStep, at'] at acted
    cases acted
    refine ⟨due, .same inv rfl rfl rfl rfl (unchanged rfl) ?_ (outside (by simp [at']))⟩
    exact ⟨(by simp), ok.news, fun _ _ _ => ok.queues (by rw [at']; rfl) (by simp [at'])
      (by simp [at'])⟩
  | linkCares tmp =>
    simp only [getStep, at'] at acted
    obtain ⟨d, domain, moved⟩ := Option.bind_eq_some_iff.mp acted
    cases moved
    refine ⟨due, .same inv rfl rfl rfl rfl (fun e => ?_) ?_ (outside (by simp [at']))⟩
    · by_cases same : e = d
      · subst same
        rw [setDomain_self]
        exact ⟨rfl, rfl, id, .inl⟩
      · rw [setDomain_of_ne _ same]
        exact ⟨rfl, rfl, id, .inl⟩
    · exact ⟨(by simp), ok.news, fun _ _ _ => ok.queues (by rw [at']; rfl) (by simp [at'])
        (by simp [at'])⟩
  | casCares tmp =>
    simp only [getStep, at'] at acted
    obtain ⟨d, domain, moved⟩ := Option.bind_eq_some_iff.mp acted
    split at moved
    · have done : c'.isNew = c.isNew ∧ c'.newAddrs = c.newAddrs ∧ c'.domain = c.domain ∧
          (∃ ret, c'.pc = .done ret) ∧ g'.table = g.table ∧ g'.age = g.age ∧
          g'.fresh = g.fresh ∧ g'.domainNum = g.domainNum ∧ g'.domains = g.domains := by
        cases grant
        all_goals
          cases moved
          exact ⟨rfl, rfl, rfl, ⟨_, rfl⟩, rfl, rfl, rfl, rfl, rfl⟩
      obtain ⟨isNew, newAddrs, domain', ⟨ret, pc⟩, table, age, fresh, num, domains⟩ := done
      refine ⟨due, .same inv table age fresh num (unchanged domains) ?_
        (outside (by simp [at']))⟩
      refine ⟨fun other => ?_, ?_, fun asking => ?_⟩
      · rw [pc] at other
        contradiction
      · rw [isNew, newAddrs, domain']
        exact ok.news
      · rw [pc] at asking
        contradiction
    · cases moved
      refine ⟨due, .same inv rfl rfl rfl rfl (unchanged rfl) ?_ (outside (by simp [at']))⟩
      exact ⟨(by simp), ok.news, fun _ _ _ => ok.queues (by rw [at']; rfl) (by simp [at'])
        (by simp [at'])⟩

theorem cancelStep_kept {q : Q} {pc pc' : CancelPc} (inv : CacheInv dnsCacheNum g due)
    (acted : cancelStep g q pc = some (g', pc')) :
    Kept g g' (.cancel q pc) (.cancel q pc') due due := by
  cases pc with
  | done => contradiction
  | look =>
    cases acted
    exact .same inv rfl rfl rfl rfl (unchanged rfl) trivial rfl
  | drop =>
    cases acted
    exact .same inv rfl rfl rfl rfl (unchanged rfl) trivial rfl
  | lock =>
    simp only [cancelStep] at acted
    split at acted
    · obtain ⟨d, domain, moved⟩ := Option.bind_eq_some_iff.mp acted
      cases moved
      refine .same inv rfl rfl rfl rfl (fun e => ⟨rfl, rfl, fun none => ?_, .inl⟩) trivial rfl
      simp [DnsPrivate.setQuery, queryDel, none]
    · cases acted
      exact .same inv rfl rfl rfl rfl (unchanged rfl) trivial rfl

omit [DecidableEq Q] in
theorem free_domain (doomed : Doomed g d) (e : Nat) :
    ((free d g).domains e).status = (g.domains e).status ∧
      ((free d g).domains e).pAddrs = (g.domains e).pAddrs ∧
      ((g.domains e).queries = [] → ((free d g).domains e).queries = []) ∧
      (((free d g).domains e).freed = true → (g.domains e).freed = true ∨ Doomed g e) := by
  by_cases same : e = d
  · subst same
    rw [free, setDomain_self]
    exact ⟨rfl, rfl, id, fun _ => .inr doomed⟩
  · rw [free, setDomain_of_ne _ same]
    exact ⟨rfl, rfl, id, .inl⟩

theorem callbackStep_kept {a : Answer} {addrs : Option (Addrs A)} {pc pc' : CallbackPc}
    (inv : CacheInv dnsCacheNum g due) (ok : (Call.callback d addrs pc : Call Q A).Ok g)
    (coming : pc = .lock → 0 < due d) (acted : callbackStep a g d addrs pc = some (g', pc')) :
    ∃ due', Kept g g' (.callback d addrs pc) (.callback d addrs pc') due due' := by
  cases pc with
  | done => contradiction
  | lock =>
    obtain ⟨after, grows, dooms⟩ := callbackSection_spec a.now addrs inv (coming rfl)
    cases acted
    refine ⟨_, after, grows, dooms, fun e => ?_⟩
    simp only [Call.atSection, Call.asks, if_true, Nat.add_zero]
    by_cases same : e = d
    · rw [same, Function.update_self, if_pos rfl]
    · rw [Function.update_of_ne same, if_neg (Ne.symm same), Nat.sub_zero]
  | noticeUser b del =>
    simp only [callbackStep] at acted
    split at acted
    next told =>
      cases acted
      obtain ⟨table, age, fresh, num, domains, _⟩ := noticeUser_kept told
      refine ⟨due, .same inv table age fresh num (unchanged domains) ?_ rfl⟩
      exact ok.mono ⟨Nat.le_of_eq fresh.symm, fun _ member => .inl (table ▸ member)⟩
    next =>
      cases acted
      exact ⟨due, .same inv rfl rfl rfl rfl (unchanged rfl) ok rfl⟩
  | free del =>
    cases acted
    cases del with
    | none => exact ⟨due, .same inv rfl rfl rfl rfl (unchanged rfl) trivial rfl⟩
    | some e =>
      exact ⟨due, .same inv rfl rfl rfl rfl (free_domain (ok e rfl)) trivial rfl⟩

omit [DecidableEq Q] in
theorem taskStep_kept {a : Answer} {pc pc' : TaskPc} (inv : CacheInv dnsCacheNum g due)
    (ok : (Call.task pc : Call Q A).Ok g) (acted : taskStep grant a g pc = some (g', pc')) :
    Kept g g' (.task pc) (.task pc') due due := by
  have same : ∀ {g₁ : DnsPrivate Q A} {pc₁ : TaskPc}, g₁.table = g.table → g₁.age = g.age →
      g₁.fresh = g.fresh → g₁.domainNum = g.domainNum → g₁.domains = g.domains →
      (Call.task pc₁ : Call Q A).Ok g₁ → Kept g g₁ (.task pc) (.task pc₁) due due :=
    fun table age fresh num domains ok =>
      .same inv table age fresh num (unchanged domains) ok rfl
  cases pc with
  | readCares =>
    cases acted
    exact same rfl rfl rfl rfl rfl trivial
  | casCares list =>
    simp only [taskStep] at acted
    split at acted
    all_goals
      cases acted
      exact same rfl rfl rfl rfl rfl trivial
  | walk list =>
    cases list with
    | none =>
      cases acted
      exact same rfl rfl rfl rfl rfl trivial
    | some d =>
      cases grant
      all_goals
        cases acted
        exact same rfl rfl rfl rfl rfl trivial
  | second d =>
    cases grant
    all_goals
      cases acted
      exact same rfl rfl rfl rfl rfl trivial
  | link d =>
    cases acted
    exact same rfl rfl rfl rfl rfl trivial
  | expire =>
    have none : ∀ d ∈ ([] : List Nat), Doomed g d := (by simp)
    obtain ⟨r, ran, after, grows, doomed⟩ :=
      expire_spec ⟨a.now.tvSec - dnsTimeoutS, a.now.tvUsec⟩ inv rfl none
    simp only [taskStep, ran, Option.map_some] at acted
    cases acted
    exact ⟨after, grows, doomed, fun _ => rfl⟩
  | free dels =>
    cases dels with
    | nil =>
      cases acted
      exact same rfl rfl rfl rfl rfl trivial
    | cons d dels =>
      cases acted
      obtain ⟨first, rest⟩ := List.forall_mem_cons.mp ok
      exact .same inv rfl rfl rfl rfl (free_domain first) rest rfl

/-- The queue of dns_task and the callbacks that come of it are left alone. -/
structure Frame (g g' : DnsPrivate Q A) : Prop where
  lookups : g'.lookups = g.lookups
  pAddCares : g'.pAddCares = g.pAddCares
  pushes : g'.pushes = g.pushes
  visits : g'.visits = g.visits
  started : g'.started = g.started
  fresh : g.fresh ≤ g'.fresh
  links : ∀ d < g.fresh, (g'.domains d).next = (g.domains d).next ∧
    (g'.domains d).freed = (g.domains d).freed

omit [DecidableEq Q] in
theorem Frame.of_domains (domains : g'.domains = g.domains) (lookups : g'.lookups = g.lookups)
    (pAddCares : g'.pAddCares = g.pAddCares) (pushes : g'.pushes = g.pushes)
    (visits : g'.visits = g.visits) (started : g'.started = g.started)
    (fresh : g'.fresh = g.fresh) : Frame g g' :=
  ⟨lookups, pAddCares, pushes, visits, started, Nat.le_of_eq fresh.symm, fun d _ => by simp only [domains, and_self]⟩

omit [DecidableEq Q] in
theorem Frame.refl (g : DnsPrivate Q A) : Frame g g := .of_domains rfl rfl rfl rfl rfl rfl rfl

omit [DecidableEq Q] in
theorem Frame.trans {g'' : DnsPrivate Q A} (first : Frame g g') (second : Frame g' g'') :
    Frame g g'' where
  lookups := second.lookups.trans first.lookups
  pAddCares := second.pAddCares.trans first.pAddCares
  pushes := second.pushes.trans first.pushes
  visits := second.visits.trans first.visits
  started := second.started.trans first.started
  fresh := first.fresh.trans second.fresh
  links d known := by
    obtain ⟨next, freed⟩ := second.links d (Nat.lt_of_lt_of_le known first.fresh)
    rw [next, freed]
    exact first.links d known

omit [DecidableEq Q] in
/-- One domain changes, but not its link. -/
theorem Frame.of_change {dom : Domain Q A} (domains : g'.domains = Function.update g.domains d dom)
    (links : dom.next = (g.domains d).next ∧ dom.freed = (g.domains d).freed)
    (lookups : g'.lookups = g.lookups)
    (pAddCares : g'.pAddCares = g.pAddCares) (pushes : g'.pushes = g.pushes)
    (visits : g'.visits = g.visits) (started : g'.started = g.started)
    (fresh : g'.fresh = g.fresh) : Frame g g' := by
  refine ⟨lookups, pAddCares, pushes, visits, started, Nat.le_of_eq fresh.symm, fun e _ => ?_⟩
  rw [domains]
  by_cases same : e = d
  · rw [same, Function.update_self]
    exact links
  · rw [Function.update_of_ne same]
    exact ⟨rfl, rfl⟩

omit [DecidableEq Q] in
theorem request_frame {c c' : Get Q A} (requested : request g c d = some (g', c')) :
    Frame g g' := by
  simp only [request] at requested
  split at requested
  · cases requested
    exact .of_change rfl ⟨rfl, rfl⟩ rfl rfl rfl rfl rfl rfl
  · split at requested
    · cases requested
      exact .refl g
    · split at requested
      · obtain ⟨clear, _, requested⟩ := Option.bind_eq_some_iff.mp requested
        obtain ⟨refresh, _, requested⟩ := Option.bind_eq_some_iff.mp requested
        split at requested
        · cases requested
          exact .of_change rfl ⟨rfl, rfl⟩ rfl rfl rfl rfl rfl rfl
        · split at requested
          · cases requested
            exact .of_change rfl ⟨rfl, rfl⟩ rfl rfl rfl rfl rfl rfl
          · cases requested
            exact .refl g
      · cases requested
        exact .refl g

theorem getSection_frame {c c' : Get Q A} {alloc : Bool} {name : List Char}
    (ran : getSection alloc g c name = some (g', c')) : Frame g g' := by
  have found : ∀ {g₁ : DnsPrivate Q A} {d : Nat}, hashSearch alloc g name = (g₁, some d) →
      Frame g g₁ → Frame g g' := by
    intro g₁ d found first
    simp only [getSection, found] at ran
    obtain ⟨⟨g₂, c₂⟩, requested, waits⟩ := Option.bind_eq_some_iff.mp ran
    have second := first.trans (request_frame requested)
    cases waits
    dsimp only
    split
    · exact second.trans (.of_change rfl ⟨rfl, rfl⟩ rfl rfl rfl rfl rfl rfl)
    · exact second
  rcases hashSearch_cases alloc g name with failed | ⟨d, _, old⟩ | made
  · simp only [getSection, failed] at ran
    cases ran
    exact .refl g
  · exact found old (.refl g)
  · refine found made ⟨rfl, rfl, rfl, rfl, rfl, Nat.le_succ _, fun d known => ?_⟩
    have same : (g.setDomain g.fresh (freshDomain name)).domains d = g.domains d :=
      setDomain_of_ne _ (Nat.ne_of_lt known)
    exact ⟨congrArg Domain.next same, congrArg Domain.freed same⟩

omit [DecidableEq Q] in
theorem evict_frame (g : DnsPrivate Q A) : Frame g (evict g).1 := by
  unfold evict
  split
  · exact .refl g
  · dsimp only
    split
    · exact .of_domains rfl rfl rfl rfl rfl rfl rfl
    · exact .of_change rfl ⟨rfl, rfl⟩ rfl rfl rfl rfl rfl rfl

theorem complete_frame (now : TimeVal) (g : DnsPrivate Q A) (d : Nat)
    (addrs : Option (Addrs A)) : Frame g (complete now g d addrs).1 := by
  have first : Frame g (settle now g d addrs) :=
    .of_change rfl ⟨rfl, rfl⟩ rfl rfl rfl rfl rfl rfl
  simp only [complete]
  split
  · have added : Frame (settle now g d addrs) (ageAdd d (settle now g d addrs)) :=
      .of_domains rfl rfl rfl rfl rfl rfl rfl
    have second := first.trans added
    split
    · exact second.trans (evict_frame _)
    · exact second
  · exact first.trans (.of_domains rfl rfl rfl rfl rfl rfl rfl)

theorem callbackSection_frame (now : TimeVal) (g : DnsPrivate Q A) (d : Nat)
    (addrs : Option (Addrs A)) : Frame g (callbackSection now g d addrs).1 := by
  simp only [callbackSection]
  split
  · exact .of_change rfl ⟨rfl, rfl⟩ rfl rfl rfl rfl rfl rfl
  · split
    · have first : Frame g (ageDel d g) := .of_domains rfl rfl rfl rfl rfl rfl rfl
      exact first.trans (complete_frame ..)
    · split
      · exact complete_frame ..
      · exact .refl g

theorem getSection_lookups {c c' : Get Q A} {a : Answer} (at' : c.pc = .lock)
    (acted : getStep grant a g c = some (g', c')) : g'.lookups = g.lookups := by
  simp only [getStep, at'] at acted
  split at acted
  · obtain ⟨r, ran, same⟩ := Option.map_eq_some_iff.mp acted
    cases same
    exact (getSection_frame ran).lookups
  · cases acted
    rfl

/-- Outside the sections a call only hands on what it has taken on, to c-ares. -/
theorem getStep_hands {c c' : Get Q A} {a : Answer} (ok : c.Ok) (at' : c.pc ≠ .lock)
    (acted : getStep .atPush a g c = some (g', c')) (d : Nat) :
    g'.lookups d + (Call.get c').asks d = g.lookups d + (Call.get c).asks d := by
  cases pc : c.pc with
  | done ret => simp only [getStep, pc, reduceCtorEq] at acted
  | lock => exact absurd pc at'
  | setStatus =>
    simp only [getStep, pc] at acted
    cases acted
    simp only [Call.asks, pc, GetPc.asking, DnsPrivate.setQuery]
    rfl
  | initDone =>
    simp only [getStep, pc] at acted
    cases acted
    simp only [Call.asks, pc, DnsPrivate.setQuery, Nat.add_left_cancel_iff]
    cases new : c.isNew with
    | true =>
      simp [(ok.news new).1, GetPc.asking, Get.asks, new]
    | false =>
      have old : ∀ c' : Get Q A, c'.isNew = c.isNew → c'.asks d = 0 := fun c' same =>
        Get.asks_old (same.trans new)
      rw [old _ new.symm, old c rfl, ite_self, ite_self]
  | notice =>
    simp only [getStep, pc] at acted
    cases acted
    simp only [Call.asks, pc, GetPc.asking, DnsPrivate.setQuery, Bool.false_eq_true, if_false]
  | noticeUser b =>
    simp only [getStep, pc] at acted
    split at acted
    next told =>
      cases acted
      rw [(noticeUser_kept told).2.2.2.2.2]
    next =>
      cases acted
      simp only [Call.asks, pc, GetPc.asking, Bool.false_eq_true, if_false]
  | readCares =>
    simp only [getStep, pc] at acted
    cases acted
    simp only [Call.asks, pc, GetPc.asking]
    rfl
  | linkCares tmp =>
    simp only [getStep, pc] at acted
    obtain ⟨e, domain, moved⟩ := Option.bind_eq_some_iff.mp acted
    cases moved
    simp only [Call.asks, pc, GetPc.asking, DnsPrivate.setDomain]
    rfl
  | casCares tmp =>
    have isNew := ok.queues (by rw [pc]; rfl) (by simp [pc]) (by simp [pc])
    simp only [getStep, pc] at acted
    obtain ⟨e, domain, moved⟩ := Option.bind_eq_some_iff.mp acted
    split at moved
    · cases moved
      simp only [Call.asks, pc, GetPc.asking, if_true, Bool.false_eq_true, if_false,
        DnsPrivate.grant, Get.asks, isNew, domain, Option.some.injEq, true_and, Nat.add_zero]
      by_cases same : e = d
      · subst same
        rw [Function.update_self, if_pos rfl]
      · rw [Function.update_of_ne (Ne.symm same), if_neg same]
        rfl
    · cases moved
      simp only [Call.asks, pc, GetPc.asking]
      rfl

theorem callbackStep_lookups {a : Answer} {addrs : Option (Addrs A)} {pc pc' : CallbackPc}
    (acted : callbackStep a g d addrs pc = some (g', pc')) :
    g'.lookups = g.lookups ∧ (pc ≠ .lock → ∀ e,
      (Call.callback d addrs pc' : Call Q A).asks e = (Call.callback d addrs pc : Call Q A).asks e) := by
  cases pc with
  | done => contradiction
  | lock =>
    cases acted
    exact ⟨(callbackSection_frame ..).lookups, fun other => absurd rfl other⟩
  | noticeUser b del =>
    simp only [callbackStep] at acted
    split at acted
    next told =>
      cases acted
      exact ⟨(noticeUser_kept told).2.2.2.2.2, fun _ _ => rfl⟩
    next =>
      cases acted
      exact ⟨rfl, fun _ _ => rfl⟩
  | free del =>
    cases acted
    refine ⟨?_, fun _ _ => rfl⟩
    cases del <;> rfl

omit [DecidableEq Q] in
theorem expire_frame {cut : TimeVal} {l dels dels' : List Nat}
    (ran : expire cut l g dels = some (g', dels')) : Frame g g' := by
  induction l generalizing g dels with
  | nil =>
    cases ran
    exact .refl _
  | cons d rest ih =>
    obtain ⟨addrs, has, _⟩ := Option.bind_eq_some_iff.mp ran
    rw [expire_cons has] at ran
    split at ran
    · split at ran
      · have first : Frame g (hashDel d (ageDel d g)) := .of_domains rfl rfl rfl rfl rfl rfl rfl
        exact first.trans (ih ran)
      · have first : Frame g ((ageDel d g).setDomain d { g.domains d with
            status := (g.domains d).status - domainQuery2 }) :=
          .of_change rfl ⟨rfl, rfl⟩ rfl rfl rfl rfl rfl rfl
        exact first.trans (ih ran)
    · cases ran
      exact .refl _

omit [DecidableEq Q] in
theorem taskStep_lookups {a : Answer} {pc pc' : TaskPc}
    (acted : taskStep .atPush a g pc = some (g', pc')) : g'.lookups = g.lookups := by
  cases pc with
  | readCares =>
    cases acted
    rfl
  | casCares list =>
    simp only [taskStep] at acted
    split at acted
    all_goals
      cases acted
      rfl
  | walk list =>
    cases list
    all_goals
      cases acted
      rfl
  | second d =>
    cases acted
    rfl
  | link d =>
    cases acted
    rfl
  | expire =>
    obtain ⟨r, ran, same⟩ := Option.map_eq_some_iff.mp acted
    cases same
    exact (expire_frame ran).lookups
  | free dels =>
    cases dels
    all_goals
      cases acted
      rfl

theorem cancelStep_lookups {q : Q} {pc pc' : CancelPc} (acted : cancelStep g q pc = some (g', pc')) :
    g'.lookups = g.lookups := by
  cases pc with
  | done => contradiction
  | look =>
    cases acted
    rfl
  | drop =>
    cases acted
    rfl
  | lock =>
    simp only [cancelStep] at acted
    split at acted
    · obtain ⟨d, domain, moved⟩ := Option.bind_eq_some_iff.mp acted
      cases moved
      rfl
    · cases acted
      rfl

end

/-- The callbacks still to come for a domain: those of its lookups, and those that rest
with calls. -/
def toCome (s : Config (DnsPrivate Q A) (Call Q A)) (d : Nat) : Nat :=
  s.shared.lookups d + s.total (Call.asks d)

structure StatusInv (s : Config (DnsPrivate Q A) (Call Q A)) : Prop where
  cache : CacheInv dnsCacheNum s.shared (toCome s)
  calls : ∀ call ∈ s.calls, call.Ok s.shared

section
variable [DecidableEq Q] {l l' : Call Q A}

theorem step_kept {a : Answer} (inv : CacheInv dnsCacheNum g due) (ok : l.Ok g)
    (coming : ∀ d, l.asks d ≤ due d) (acted : step grant a g l = some (g', l')) :
    ∃ due', Kept g g' l l' due due' := by
  cases l with
  | get c =>
    obtain ⟨⟨g₁, c'⟩, moved, same⟩ := Option.map_eq_some_iff.mp acted
    cases same
    exact getStep_kept inv ok moved
  | cancel q pc =>
    obtain ⟨⟨g₁, pc'⟩, moved, same⟩ := Option.map_eq_some_iff.mp acted
    cases same
    exact ⟨due, cancelStep_kept inv moved⟩
  | callback d addrs pc =>
    obtain ⟨⟨g₁, pc'⟩, moved, same⟩ := Option.map_eq_some_iff.mp acted
    cases same
    refine callbackStep_kept inv ok (fun at' => ?_) moved
    have one := coming d
    rw [at'] at one
    simp only [Call.asks, if_true] at one
    exact one
  | task pc =>
    obtain ⟨⟨g₁, pc'⟩, moved, same⟩ := Option.map_eq_some_iff.mp acted
    cases same
    exact ⟨due, taskStep_kept inv ok moved⟩

/-- What a step hands over to c-ares, where each push brings its two callbacks. -/
theorem step_hands {a : Answer} (ok : l.Ok g) (acted : step .atPush a g l = some (g', l')) (d : Nat) :
    if l.atSection then g'.lookups d = g.lookups d
    else g'.lookups d + l'.asks d = g.lookups d + l.asks d := by
  cases l with
  | get c =>
    obtain ⟨⟨g₁, c'⟩, moved, same⟩ := Option.map_eq_some_iff.mp acted
    cases same
    by_cases at' : c.pc = .lock
    · simp only [Call.atSection, at', decide_true, if_true, getSection_lookups at' moved]
    · simp only [Call.atSection, at', decide_false, Bool.false_eq_true, if_false]
      exact getStep_hands ok at' moved d
  | cancel q pc =>
    obtain ⟨⟨g₁, pc'⟩, moved, same⟩ := Option.map_eq_some_iff.mp acted
    cases same
    have lookups := cancelStep_lookups moved
    simp only [Call.atSection, Bool.false_eq_true, if_false, Call.asks, lookups]
  | callback e addrs pc =>
    obtain ⟨⟨g₁, pc'⟩, moved, same⟩ := Option.map_eq_some_iff.mp acted
    cases same
    obtain ⟨lookups, asks⟩ := callbackStep_lookups moved
    cases pc with
    | lock => simp only [Call.atSection, if_true, lookups]
    | _ =>
      simp only [Call.atSection, Bool.false_eq_true, if_false, lookups]
      rw [asks (by simp)]
  | task pc =>
    obtain ⟨⟨g₁, pc'⟩, moved, same⟩ := Option.map_eq_some_iff.mp acted
    cases same
    have lookups := taskStep_lookups moved
    simp only [Call.atSection, Bool.false_eq_true, if_false, Call.asks, lookups]

theorem step_status {a : Answer} {pre post : List (Call Q A)}
    (inv : StatusInv ⟨g, pre ++ l :: post⟩) (acted : step .atPush a g l = some (g', l')) :
    StatusInv ⟨g', pre ++ l' :: post⟩ := by
  have ok : l.Ok g := inv.calls l (by simp)
  have dues : ∀ d (g : DnsPrivate Q A) (l : Call Q A), toCome ⟨g, pre ++ l :: post⟩ d =
      g.lookups d + (l.asks d + others (Call.asks d) pre post) := fun d g l => by
    simp only [toCome, total_split]
  have coming : ∀ d, l.asks d ≤ toCome ⟨g, pre ++ l :: post⟩ d := fun d => by
    rw [dues]
    omega
  obtain ⟨due', kept⟩ := step_kept inv.cache ok coming acted
  refine ⟨kept.inv.dues fun d => ?_, ?_⟩
  · have change := kept.dues d
    have hands := step_hands ok acted d
    rw [dues] at change ⊢
    cases at' : l.atSection with
    | true =>
      simp only [at', if_true] at change hands
      omega
    | false =>
      simp only [at', Bool.false_eq_true, if_false] at change hands
      omega
  · exact forall_split inv.calls kept.ok fun _ _ ok => ok.mono kept.grows

theorem start_status {ev : Event Q A} {ls : List (Call Q A)} (inv : StatusInv ⟨g, ls⟩)
    (started : start ev g = some (g', l)) : StatusInv ⟨g', ls ++ [l]⟩ := by
  have quiet : ∀ {g' : DnsPrivate Q A} {l : Call Q A}, g'.table = g.table → g'.age = g.age →
      g'.fresh = g.fresh → g'.domainNum = g.domainNum → g'.domains = g.domains → l.Ok g' →
      (∀ d, g'.lookups d + l.asks d = g.lookups d) → StatusInv ⟨g', ls ++ [l]⟩ := by
    intro g' l table age fresh num domains ok lookups
    refine ⟨inv.cache.congr table age fresh num (unchanged domains) fun d => ?_, ?_⟩
    · have same := lookups d
      simp only [toCome, total_start _ g' g]
      omega
    · refine forall_start inv.calls ok fun call ok => ok.mono ?_
      exact ⟨Nat.le_of_eq fresh.symm, fun _ member => .inl (table ▸ member)⟩
  cases ev with
  | get given q host clearCache dontUseCache tv =>
    simp only [start] at started
    split at started
    · contradiction
    · split at started
      all_goals
        cases started
        refine quiet rfl rfl rfl rfl rfl ⟨?_, (by simp), (by rintro ⟨⟩)⟩ fun d => rfl
      · exact fun _ => ⟨rfl, rfl, rfl⟩
      · simp
  | cancel q =>
    simp only [start] at started
    split at started
    · cases started
      exact quiet rfl rfl rfl rfl rfl trivial fun d => rfl
    · contradiction
  | callback d addrs =>
    simp only [start] at started
    split at started
    · contradiction
    next some =>
      cases started
      refine quiet rfl rfl rfl rfl rfl trivial fun e => ?_
      simp only [Call.asks]
      by_cases same : e = d
      · subst same
        rw [Function.update_self, if_pos rfl]
        omega
      · rw [Function.update_of_ne same, if_neg (Ne.symm same), Nat.add_zero]
  | task =>
    simp only [start] at started
    split at started
    · contradiction
    · cases started
      exact quiet rfl rfl rfl rfl rfl trivial fun d => rfl

omit [DecidableEq Q] in
theorem initial_cache : CacheInv dnsCacheNum (initial : DnsPrivate Q A) fun _ => 0 where
  entries _ member := absurd member List.not_mem_nil
  outside _ _ := ⟨rfl, rfl, List.not_mem_nil⟩
  distinct := List.nodup_nil
  once := List.nodup_nil
  num := rfl
  le := (by decide : (0 : Int) ≤ 1024)
  known _ member := absurd member List.not_mem_nil
  freed _ freed := absurd freed Bool.false_ne_true

theorem runs_status {s : Config (DnsPrivate Q A) (Call Q A)}
    (run : (dns Q A .atPush).Reaches ⟨initial, []⟩ s) : StatusInv s :=
  Program.Reaches.invariant ⟨initial_cache, fun _ member => absurd member List.not_mem_nil⟩
    start_status step_status run

/-- The cache over whole runs, each push bringing its two callbacks. -/
theorem dns_cache {s : Config (DnsPrivate Q A) (Call Q A)}
    (run : (dns Q A .atPush).Reaches ⟨initial, []⟩ s) :
    (∀ d ∈ s.shared.table, Entry s.shared (toCome s d) d) ∧
      s.shared.domainNum = s.shared.age.length ∧ s.shared.domainNum ≤ dnsCacheNum ∧
      ∀ d, (s.shared.domains d).freed = true →
        toCome s d = 0 ∧ (s.shared.domains d).queries = [] := by
  obtain ⟨cache, _⟩ := runs_status run
  refine ⟨cache.entries, cache.num, cache.le, fun d freed => ?_⟩
  obtain ⟨none, queries, _⟩ := cache.outside d (cache.freed d freed).1
  exact ⟨none, queries⟩

/-- A name that is asked for, answered twice and then cached. -/
def oneLookup : List (Event Nat Nat ⊕ Nat × Answer) :=
  let now : Answer := ⟨⟨7, 0⟩, true⟩
  List.flatten [[.inl (.get true 0 (.name ['a']) false false none)], Program.turns 0 6 now,
    [.inl (.callback 0 (some ⟨[4], ⟨7, 0⟩⟩)), .inr (1, now), .inl (.callback 0 none),
      .inr (2, now)]]

theorem dns_cache_oneLookup : ∃ s : Config (DnsPrivate Nat Nat) (Call Nat Nat),
    (dns Nat Nat .atPush).Reaches ⟨initial, []⟩ s ∧ s.shared.table = [0] ∧
      Entry s.shared (toCome s 0) 0 := by
  have left : ((dns Nat Nat .atPush).exec (fun _ => True) oneLookup ⟨initial, []⟩).map
      (fun s => s.shared.table) = some [0] := rfl
  obtain ⟨s, executed, table⟩ := Option.map_eq_some_iff.mp left
  have run := (Program.exec_reaches executed).reaches
  exact ⟨s, run, table, (dns_cache run).1 0 (by rw [table]; exact List.mem_cons_self)⟩

end

end MoonInWater.Dns
