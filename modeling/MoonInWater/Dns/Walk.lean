import MoonInWater.Dns.Pending
import MoonInWater.Lib.Chain

/-! The queue at p_add_cares and the walk of dns_task over what it has detached, with the
callbacks that come of its lookups. -/
namespace MoonInWater.Dns
open Threads
open Chain (Path)
variable {Q A : Type} {g g' : DnsPrivate Q A} {l l' : Call Q A} {d e : Nat}
  {queue rest queue' rest' : List Nat}

/-- The link behind a domain. -/
def DnsPrivate.next (g : DnsPrivate Q A) (d : Nat) : Option Nat := (g.domains d).next

/-- Where the walk stands, with `rest` before it. -/
def TaskPc.At (g : DnsPrivate Q A) (rest : List Nat) : TaskPc → Prop
  | .walk list => Path g.next list rest
  | .second d => Path g.next (g.next d) rest
  | .link d => Path g.next (g.next d) rest ∧ d < g.fresh ∧ (g.domains d).freed = false
  | _ => rest = []

def Call.Fits (g : DnsPrivate Q A) (rest : List Nat) : Call Q A → Prop
  | .task pc => pc.At g rest
  | .get c => ∀ tmp, c.pc = .casCares tmp → ∃ d, c.domain = some d ∧ g.next d = tmp
  | _ => True

def Call.tasks : Call Q A → Nat
  | .task _ => 1
  | _ => 0

/-- The second lookup of a visit is still to be asked for. -/
def Call.half (d : Nat) : Call Q A → Nat
  | .task (.second e) => if e = d then 1 else 0
  | _ => 0

attribute [simp] Call.tasks Call.half

/-- The callbacks to come, with two for each visit to come. -/
def owed (s : Config (DnsPrivate Q A) (Call Q A)) (queue rest : List Nat) (d : Nat) : Nat :=
  toCome s d + s.total (Call.half d) + 2 * (queue.count d + rest.count d)

/-- The queue and what the walk has before it hold the pushes without a visit. -/
structure QueueInv (s : Config (DnsPrivate Q A) (Call Q A)) (queue rest : List Nat) : Prop where
  cache : CacheInv dnsCacheNum s.shared (owed s queue rest)
  calls : ∀ l ∈ s.calls, l.Ok s.shared
  queued : Path s.shared.next s.shared.pAddCares queue
  fits : ∀ l ∈ s.calls, l.Fits s.shared rest
  tasks : s.total Call.tasks = if s.shared.started then 1 else 0
  idle : s.total Call.tasks = 0 → rest = []
  pushes : ∀ d, s.shared.pushes d = s.shared.visits d + queue.count d + rest.count d

/-- While dns_task is between the lookups of the domain and its link, the step neither
frees the domain nor links it elsewhere. -/
def Call.spares (g : DnsPrivate Q A) (d : Nat) : Call Q A → Bool
  | .callback _ _ (.free del) => del ≠ some d
  | .get c =>
    match c.pc with
    | .linkCares tmp => c.domain ≠ some d ∨ tmp = g.next d
    | _ => true
  | _ => true

/-- The domain between whose lookups and link the walk stands. -/
def Call.visiting : Call Q A → Option Nat
  | .task (.link d) => some d
  | _ => none

def spares (s : Config (DnsPrivate Q A) (Call Q A)) (l : Call Q A) : Bool :=
  s.calls.all fun x => x.visiting.all (l.spares s.shared)

theorem CacheInv.due_le {room : Int} {due : Nat → Nat} (inv : CacheInv room g due) (d : Nat) :
    due d ≤ 2 := by
  by_cases member : d ∈ g.table
  · rcases (inv.entries d member).cases with ⟨_, two⟩ | ⟨_, one⟩ | ⟨_, none, _⟩ <;> omega
  · rw [(inv.outside d member).1]
    omega

section
variable {pre post : List (Call Q A)} {ls : List (Call Q A)}

theorem owed_split (d : Nat) : owed ⟨g, pre ++ l :: post⟩ queue rest d =
    g.lookups d + l.asks d + l.half d + others (Call.asks d) pre post +
      others (Call.half d) pre post + 2 * (queue.count d + rest.count d) := by
  simp only [owed, toCome, total_split]
  omega

/-- The domains whose links a call relies on. -/
def Call.uses (d : Nat) : Call Q A → Prop
  | .task (.second e) | .task (.link e) => e = d
  | .get c => (∃ tmp, c.pc = .casCares tmp) ∧ c.domain = some d
  | _ => False

theorem Call.Fits.congr (fits : l.Fits g rest)
    (next : ∀ e, e ∈ rest ∨ l.uses e → g'.next e = g.next e) (fresh : g.fresh ≤ g'.fresh)
    (freed : ∀ d, l.visiting = some d → (g'.domains d).freed = (g.domains d).freed) :
    l.Fits g' rest := by
  have path : ∀ first, Path g.next first rest → Path g'.next first rest := fun first path =>
    path.congr fun e member => next e (.inl member)
  cases l with
  | task pc =>
    cases pc with
    | walk list => exact path list fits
    | second d =>
      have same : g'.next d = g.next d := next d (.inr rfl)
      simp only [Call.Fits, TaskPc.At, same]
      exact path _ fits
    | link d =>
      obtain ⟨there, known, alive⟩ := fits
      have same : g'.next d = g.next d := next d (.inr rfl)
      simp only [Call.Fits, TaskPc.At, same]
      exact ⟨path _ there, Nat.lt_of_lt_of_le known fresh, (freed d rfl).trans alive⟩
    | _ => exact fits
  | get c =>
    intro tmp pc
    obtain ⟨d, domain, link⟩ := fits tmp pc
    exact ⟨d, domain, (next d (.inr ⟨⟨tmp, pc⟩, domain⟩)).trans link⟩
  | _ => trivial

/-- Callbacks that are owed belong to a domain of the table, which is not freed. -/
theorem QueueInv.alive {s : Config (DnsPrivate Q A) (Call Q A)} (inv : QueueInv s queue rest)
    (some : 0 < owed s queue rest d) : d < s.shared.fresh ∧ (s.shared.domains d).freed = false := by
  have member : d ∈ s.shared.table := inv.cache.due_mem some
  refine ⟨inv.cache.known d member, ?_⟩
  by_contra freed
  exact (inv.cache.freed d (Bool.not_eq_false _ ▸ freed)).1 member

variable [DecidableEq Q]

/-- A step against the ledger of owed callbacks. -/
theorem QueueInv.move {a : Answer} (inv : QueueInv ⟨g, pre ++ l :: post⟩ queue rest)
    (acted : step .atVisit a g l = some (g', l'))
    (ledger : ∀ d, g'.lookups d + (if l.atSection then 0 else l'.asks d) + l'.half d +
        2 * (queue'.count d + rest'.count d) =
      g.lookups d + (if l.atSection then 0 else l.asks d) + l.half d +
        2 * (queue.count d + rest.count d))
    (queued : Path g'.next g'.pAddCares queue') (mine : l'.Fits g' rest')
    (fits : ∀ x ∈ pre ++ post, x.Fits g rest → x.Fits g' rest')
    (started : g'.started = g.started) (kind : l'.tasks = l.tasks) (idle : l.tasks = 0 → rest' = rest)
    (pushes : ∀ d, g'.pushes d = g'.visits d + queue'.count d + rest'.count d) :
    QueueInv ⟨g', pre ++ l' :: post⟩ queue' rest' := by
  have coming : ∀ d, l.asks d ≤ owed ⟨g, pre ++ l :: post⟩ queue rest d := fun d => by
    rw [owed_split]
    omega
  obtain ⟨due', kept⟩ := step_kept inv.cache (inv.calls l (by simp)) coming acted
  refine ⟨kept.inv.dues fun d => ?_, ?_, queued, ?_, ?_, fun none => ?_, pushes⟩
  · have change := kept.dues d
    have books := ledger d
    rw [owed_split] at change ⊢
    cases at' : l.atSection with
    | true =>
      simp only [at', if_true] at change books
      omega
    | false =>
      simp only [at', Bool.false_eq_true, if_false] at change books
      omega
  · exact forall_split inv.calls kept.ok fun _ _ ok => ok.mono kept.grows
  · exact forall_split inv.fits mine fits
  · have tasks := inv.tasks
    simp only [total_split] at tasks ⊢
    rw [kind, started]
    exact tasks
  · have before := inv.idle
    simp only [total_split] at none before
    rw [kind] at none
    rw [idle (by omega), before none]

/-- A step of another call than dns_task that does not come to the queue. -/
theorem QueueInv.quiet {a : Answer} (inv : QueueInv ⟨g, pre ++ l :: post⟩ queue rest)
    (acted : step .atVisit a g l = some (g', l')) (tasks : l.tasks = 0 ∧ l'.tasks = 0)
    (lookups : g'.lookups = g.lookups) (pAddCares : g'.pAddCares = g.pAddCares)
    (pushes : g'.pushes = g.pushes) (visits : g'.visits = g.visits)
    (started : g'.started = g.started) (fresh : g.fresh ≤ g'.fresh)
    (asks : l.atSection = false → ∀ d, l'.asks d = l.asks d) (mine : l'.Fits g' rest)
    (next : ∀ e, (e ∈ queue ∨ e ∈ rest ∨ ∃ x ∈ pre ++ post, x.uses e) → g'.next e = g.next e)
    (freed : ∀ x ∈ pre ++ post, ∀ d, x.visiting = some d →
      (g'.domains d).freed = (g.domains d).freed) :
    QueueInv ⟨g', pre ++ l' :: post⟩ queue rest := by
  have half : ∀ {l : Call Q A}, l.tasks = 0 → ∀ d, l.half d = 0 := by
    intro l none d
    cases l with
    | task pc => contradiction
    | _ => rfl
  refine inv.move acted (fun d => ?_) ?_ mine (fun x member fits => ?_) started
    (tasks.2.trans tasks.1.symm) (fun _ => rfl) (fun d => ?_)
  · rw [lookups, half tasks.1, half tasks.2]
    cases at' : l.atSection with
    | true => rfl
    | false =>
      simp only [Bool.false_eq_true, if_false]
      rw [asks at']
  · rw [pAddCares]
    exact inv.queued.congr fun e member => next e (.inl member)
  · refine fits.congr (fun e used => next e (.inr ?_)) fresh (freed x member)
    exact used.imp_right fun used => ⟨x, member, used⟩
  · rw [pushes, visits]
    exact inv.pushes d

omit [DecidableEq Q] in
/-- Each visit to come is owed two callbacks. -/
theorem visit_owed (s : Config (DnsPrivate Q A) (Call Q A)) (some : e ∈ queue ∨ e ∈ rest) :
    2 ≤ owed s queue rest e := by
  unfold owed
  rcases some with member | member
  all_goals
    have positive := List.count_pos_iff.mpr member
    omega

omit [DecidableEq Q] in
/-- A domain that a call uses has callbacks to come, except the one that is visited. -/
theorem uses_owed (ok : l.Ok g) (uses : l.uses d) : l.visiting = some d ∨ 0 < l.half d ∨
    l.asks d = 2 := by
  unfold Call.uses at uses
  split at uses
  · subst uses
    exact .inr (.inl (by simp [Call.half]))
  · subst uses
    exact .inl rfl
  next c =>
    obtain ⟨⟨tmp, pc⟩, domain⟩ := uses
    have ok : c.Ok := ok
    have isNew := ok.queues (by rw [pc]; rfl) (by simp [pc]) (by simp [pc])
    exact .inr (.inr (by simp only [Call.asks, pc, GetPc.asking, if_true, Get.asks, isNew, domain,
      and_self]))
  · exact uses.elim

omit [DecidableEq Q] in
/-- All that is used has been made. -/
theorem QueueInv.known {s : Config (DnsPrivate Q A) (Call Q A)} (inv : QueueInv s queue rest)
    (used : d ∈ queue ∨ d ∈ rest ∨ ∃ x ∈ s.calls, x.uses d) : d < s.shared.fresh := by
  rcases used with queued | before | ⟨x, member, uses⟩
  · exact (inv.alive (Nat.lt_of_lt_of_le Nat.zero_lt_two (visit_owed s (.inl queued)))).1
  · exact (inv.alive (Nat.lt_of_lt_of_le Nat.zero_lt_two (visit_owed s (.inr before)))).1
  · have mine : ∀ w : Call Q A → Nat, w x ≤ s.total w := fun w => weight_le_total member
    rcases uses_owed (inv.calls x member) uses with visits | half | asks
    · have fits := inv.fits x member
      unfold Call.visiting at visits
      split at visits
      · cases visits
        exact fits.2.1
      · contradiction
    · refine (inv.alive ?_).1
      have part := mine (Call.half d)
      unfold owed
      omega
    · refine (inv.alive ?_).1
      have part := mine (Call.asks d)
      unfold owed toCome
      omega

/-- A step of another call than dns_task within the frame of the queue. -/
theorem QueueInv.framed {a : Answer} (inv : QueueInv ⟨g, pre ++ l :: post⟩ queue rest)
    (acted : step .atVisit a g l = some (g', l')) (tasks : l.tasks = 0 ∧ l'.tasks = 0)
    (frame : Frame g g') (asks : l.atSection = false → ∀ d, l'.asks d = l.asks d)
    (mine : l'.Fits g' rest) : QueueInv ⟨g', pre ++ l' :: post⟩ queue rest := by
  have here : ∀ {x : Call Q A}, x ∈ pre ++ post → x ∈ pre ++ l :: post := fun {x} member => by
    rcases List.mem_append.mp member with before | after
    · exact List.mem_append_left _ before
    · exact List.mem_append_right _ (List.mem_cons_of_mem _ after)
  refine inv.quiet acted tasks frame.lookups frame.pAddCares frame.pushes frame.visits frame.started
    frame.fresh asks mine (fun e used => ?_) fun x member d visits => ?_
  · refine (frame.links e (inv.known ?_)).1
    exact used.imp_right fun used => used.imp_right fun ⟨x, member, uses⟩ => ⟨x, here member, uses⟩
  · refine (frame.links d (inv.known (.inr (.inr ⟨x, here member, ?_⟩)))).2
    unfold Call.visiting at visits
    split at visits
    · cases visits
      rfl
    · contradiction

theorem noticeUser_frame {b : Nat} (told : noticeUser g b = some g') : Frame g g' := by
  unfold noticeUser at told
  split at told
  · cases told
    exact .of_domains rfl rfl rfl rfl rfl rfl rfl
  · contradiction

/-- Only the exchange of p_add_cares asks who answers. -/
theorem getStep_grant {a : Answer} {c : Get Q A} (other : ∀ tmp, c.pc ≠ .casCares tmp) :
    getStep .atVisit a g c = getStep .atPush a g c := by
  cases pc : c.pc with
  | casCares tmp => exact absurd pc (other tmp)
  | _ => simp only [getStep, pc]

theorem getStep_queue {a : Answer} {c c' : Get Q A}
    (inv : QueueInv ⟨g, pre ++ .get c :: post⟩ queue rest)
    (spared : spares ⟨g, pre ++ .get c :: post⟩ (.get c) = true)
    (acted : getStep .atVisit a g c = some (g', c')) :
    ∃ queue', QueueInv ⟨g', pre ++ .get c' :: post⟩ queue' rest := by
  have ok : c.Ok := inv.calls (.get c) (by simp)
  have stepped : step .atVisit a g (.get c) = some (g', .get c') := by
    simp only [step, acted, Option.map_some]
  have tasks : (Call.get c).tasks = 0 ∧ (Call.get c').tasks = 0 := ⟨rfl, rfl⟩
  have asks : (∀ tmp, c.pc ≠ .casCares tmp) → g'.lookups = g.lookups →
      (Call.get c).atSection = false → ∀ d, (Call.get c').asks d = (Call.get c).asks d := by
    intro other lookups outside d
    have at' : c.pc ≠ .lock := by simpa [Call.atSection] using outside
    have hands := getStep_hands ok at' (getStep_grant other ▸ acted) d
    rw [lookups] at hands
    omega
  have framed : Frame g g' → (∀ tmp, c.pc ≠ .casCares tmp) → (∀ tmp, c'.pc ≠ .casCares tmp) →
      ∃ queue', QueueInv ⟨g', pre ++ .get c' :: post⟩ queue' rest := by
    intro frame other other'
    refine ⟨queue, inv.framed stepped tasks frame (asks other frame.lookups) ?_⟩
    exact fun tmp at' => absurd at' (other' tmp)
  cases pc : c.pc with
  | done ret => simp only [getStep, pc, reduceCtorEq] at acted
  | lock =>
    simp only [getStep, pc] at acted
    split at acted
    · obtain ⟨r, ran, same⟩ := Option.map_eq_some_iff.mp acted
      cases same
      exact framed (getSection_frame ran) (by simp [pc]) (by simp)
    · cases acted
      refine framed (.of_domains rfl rfl rfl rfl rfl rfl rfl) (by simp [pc]) ?_
      split <;> simp
  | setStatus =>
    simp only [getStep, pc] at acted
    cases acted
    exact framed (.of_domains rfl rfl rfl rfl rfl rfl rfl) (by simp [pc]) (by simp)
  | initDone =>
    simp only [getStep, pc] at acted
    cases acted
    refine framed (.of_domains rfl rfl rfl rfl rfl rfl rfl) (by simp [pc]) fun tmp => ?_
    dsimp only
    split
    · simp
    · split <;> simp
  | notice =>
    simp only [getStep, pc] at acted
    cases acted
    exact framed (.of_domains rfl rfl rfl rfl rfl rfl rfl) (by simp [pc]) (by simp)
  | noticeUser b =>
    simp only [getStep, pc] at acted
    split at acted
    next told =>
      cases acted
      exact framed (noticeUser_frame told) (by simp [pc]) (by simp [pc])
    next =>
      cases acted
      exact framed (.refl g) (by simp [pc]) (by simp)
  | readCares =>
    simp only [getStep, pc] at acted
    cases acted
    exact framed (.refl g) (by simp [pc]) (by simp)
  | linkCares tmp =>
    have isNew := ok.queues (by rw [pc]; rfl) (by simp [pc]) (by simp [pc])
    simp only [getStep, pc] at acted
    obtain ⟨d, domain, moved⟩ := Option.bind_eq_some_iff.mp acted
    cases moved
    have mine : (Call.get c).asks d = 2 := by
      simp only [Call.asks, pc, GetPc.asking, if_true, Get.asks, isNew, domain, and_self]
    have links : (g.setDomain d { g.domains d with next := tmp }).next d = tmp :=
      congrArg Domain.next (setDomain_self _)
    have most := inv.cache.due_le d
    rw [owed_split, mine] at most
    refine ⟨queue, inv.quiet stepped tasks rfl rfl rfl rfl rfl (Nat.le_refl _)
      (asks (by simp [pc]) rfl) ?_ (fun e used => ?_) fun x _ e _ => ?_⟩
    · intro tmp' at'
      cases at'
      exact ⟨d, domain, links⟩
    · by_cases same : e = d
      · subst same
        rw [links]
        rcases used with queued | before | ⟨x, member, uses⟩
        · have positive := List.count_pos_iff.mpr queued
          omega
        · have positive := List.count_pos_iff.mpr before
          omega
        · have okay : x.Ok g := by
            refine inv.calls x ?_
            rcases List.mem_append.mp member with first | second <;> simp [*]
          rcases uses_owed okay uses with visits | half | asks
          · have spared := List.all_eq_true.mp spared x (by
              rcases List.mem_append.mp member with first | second <;> simp [*])
            simp only [visits, Option.all_some, Call.spares, pc, domain, ne_eq, not_true_eq_false,
              false_or, decide_eq_true_eq] at spared
            exact spared
          · have part : x.half e ≤ others (Call.half e) pre post := weight_le_others member
            omega
          · have part : x.asks e ≤ others (Call.asks e) pre post := weight_le_others member
            omega
      · exact congrArg Domain.next (setDomain_of_ne _ same)
    · by_cases same : e = d
      · subst same
        have now : (g.setDomain e { g.domains e with next := tmp }).domains e =
            { g.domains e with next := tmp } := setDomain_self _
        rw [now]
      · exact congrArg Domain.freed (setDomain_of_ne _ same)
  | casCares tmp =>
    have isNew := ok.queues (by rw [pc]; rfl) (by simp [pc]) (by simp [pc])
    obtain ⟨d, domain, link⟩ := inv.fits (.get c) (by simp) tmp pc
    simp only [getStep, pc, domain, Option.bind_eq_bind, Option.bind_some, reduceCtorEq,
      if_false] at acted
    split at acted
    next hit =>
      cases acted
      have asked : ∀ e, (Call.get c).asks e = if d = e then 2 else 0 := fun e => by
        simp only [Call.asks, pc, GetPc.asking, if_true, Get.asks, isNew, domain, true_and,
          Option.some.injEq]
      have counts : ∀ e, (d :: queue).count e = queue.count e + if d = e then 1 else 0 := fun e => by
        rw [List.count_cons]
        simp only [beq_iff_eq]
      refine ⟨d :: queue, inv.move stepped (fun e => ?_) ?_ (by rintro _ ⟨⟩) (fun x _ fits => ?_) rfl rfl
        (fun _ => rfl) fun e => ?_⟩
      · have at' : (Call.get c).atSection = false := by simp [Call.atSection, pc]
        rw [at', counts, asked]
        simp only [Bool.false_eq_true, if_false, Call.asks, GetPc.asking, Call.half]
        split <;> omega
      · exact ⟨rfl, link ▸ hit ▸ inv.queued⟩
      · exact fits.congr (fun _ _ => rfl) (Nat.le_refl _) fun _ _ => rfl
      · have before := inv.pushes e
        rw [counts]
        dsimp only at before ⊢
        by_cases same : e = d
        · subst same
          rw [Function.update_self, if_pos rfl]
          omega
        · rw [Function.update_of_ne same, if_neg (Ne.symm same)]
          omega
    next =>
      cases acted
      refine ⟨queue, inv.framed stepped tasks (.refl g) (fun _ e => ?_) (by rintro _ ⟨⟩)⟩
      simp only [Call.asks, pc, GetPc.asking, Get.asks, domain]

theorem cancelStep_frame {q : Q} {pc pc' : CancelPc} (acted : cancelStep g q pc = some (g', pc')) :
    Frame g g' := by
  cases pc with
  | done => contradiction
  | look =>
    cases acted
    exact .refl g
  | drop =>
    cases acted
    exact .of_domains rfl rfl rfl rfl rfl rfl rfl
  | lock =>
    simp only [cancelStep] at acted
    split at acted
    · obtain ⟨d, _, moved⟩ := Option.bind_eq_some_iff.mp acted
      cases moved
      exact ⟨rfl, rfl, rfl, rfl, rfl, Nat.le_refl _, fun _ _ => ⟨rfl, rfl⟩⟩
    · cases acted
      exact .refl g

omit [DecidableEq Q] in
theorem free_next (freed e : Nat) : (free freed g).next e = g.next e := by
  by_cases same : e = freed
  · subst same
    have now : (free e g).domains e = { g.domains e with freed := true } := setDomain_self _
    rw [DnsPrivate.next, now]
    rfl
  · exact congrArg Domain.next (setDomain_of_ne _ same)

theorem callbackStep_queue {a : Answer} {addrs : Option (Addrs A)} {pc pc' : CallbackPc}
    (inv : QueueInv ⟨g, pre ++ .callback d addrs pc :: post⟩ queue rest)
    (spared : spares ⟨g, pre ++ .callback d addrs pc :: post⟩ (.callback d addrs pc) = true)
    (acted : callbackStep a g d addrs pc = some (g', pc')) :
    QueueInv ⟨g', pre ++ .callback d addrs pc' :: post⟩ queue rest := by
  have stepped : step .atVisit a g (.callback d addrs pc : Call Q A) =
      some (g', .callback d addrs pc') := by
    simp only [step, acted, Option.map_some]
  have tasks : (Call.callback d addrs pc : Call Q A).tasks = 0 ∧
    (Call.callback d addrs pc' : Call Q A).tasks = 0 := ⟨rfl, rfl⟩
  have asks : (Call.callback d addrs pc : Call Q A).atSection = false → ∀ e,
      (Call.callback d addrs pc' : Call Q A).asks e = (Call.callback d addrs pc : Call Q A).asks e := by
    intro outside
    refine (callbackStep_lookups acted).2 fun at' => ?_
    rw [at'] at outside
    contradiction
  have framed : Frame g g' → QueueInv ⟨g', pre ++ .callback d addrs pc' :: post⟩ queue rest :=
    fun frame => inv.framed stepped tasks frame asks trivial
  cases pc with
  | done => contradiction
  | lock =>
    cases acted
    exact framed (callbackSection_frame ..)
  | noticeUser b del =>
    simp only [callbackStep] at acted
    split at acted
    next told =>
      cases acted
      exact framed (noticeUser_frame told)
    next =>
      cases acted
      exact framed (.refl g)
  | free del =>
    cases acted
    cases del with
    | none => exact framed (.refl g)
    | some freed =>
      refine inv.quiet stepped tasks rfl rfl rfl rfl rfl (Nat.le_refl _) asks trivial
        (fun e _ => free_next freed e) fun x member e visits => ?_
      have apart : e ≠ freed := by
        have spared := List.all_eq_true.mp spared x (by
          rcases List.mem_append.mp member with first | second <;> simp [*])
        rw [visits] at spared
        simp only [Option.all_some, Call.spares, ne_eq, Option.some.injEq, decide_not,
          Bool.not_eq_eq_eq_not, Bool.not_true, decide_eq_false_iff_not] at spared
        exact fun same => spared same.symm
      exact congrArg Domain.freed (setDomain_of_ne _ apart)

omit [DecidableEq Q] in
/-- Beside the call of dns_task there is no other one. -/
theorem QueueInv.others_tasks {pc : TaskPc} (inv : QueueInv ⟨g, pre ++ .task pc :: post⟩ queue rest) :
    ∀ x ∈ pre ++ post, x.tasks = 0 := by
  intro x member
  have tasks := inv.tasks
  rw [total_split] at tasks
  have part : x.tasks ≤ others Call.tasks pre post := weight_le_others member
  have mine : (Call.task pc : Call Q A).tasks = 1 := rfl
  split at tasks <;> omega

/-- A step of dns_task, which leaves the links alone. -/
theorem QueueInv.turn {a : Answer} {pc pc' : TaskPc}
    (inv : QueueInv ⟨g, pre ++ .task pc :: post⟩ queue rest)
    (acted : taskStep .atVisit a g pc = some (g', pc'))
    (ledger : ∀ d, g'.lookups d + (Call.task pc' : Call Q A).half d +
        2 * (queue'.count d + rest'.count d) =
      g.lookups d + (Call.task pc : Call Q A).half d + 2 * (queue.count d + rest.count d))
    (queued : Path g'.next g'.pAddCares queue') (mine : pc'.At g' rest')
    (next : ∀ e < g.fresh, g'.next e = g.next e) (started : g'.started = g.started)
    (pushes : ∀ d, g'.pushes d = g'.visits d + queue'.count d + rest'.count d) :
    QueueInv ⟨g', pre ++ .task pc' :: post⟩ queue' rest' := by
  have stepped : step .atVisit a g (.task pc : Call Q A) = some (g', .task pc') := by
    simp only [step, acted, Option.map_some]
  refine inv.move stepped (fun d => ?_) queued mine (fun x member fits => ?_) started rfl (by rintro ⟨⟩) pushes
  · simp only [Call.atSection, Bool.false_eq_true, if_false, Call.asks, Nat.add_zero]
    exact ledger d
  · cases x with
    | task pc => exact absurd (inv.others_tasks _ member) (by simp [Call.tasks])
    | get c =>
      intro tmp at'
      obtain ⟨d, domain, link⟩ := fits tmp at'
      refine ⟨d, domain, (next d (inv.known (.inr (.inr ⟨.get c, ?_, ⟨tmp, at'⟩, domain⟩)))).trans link⟩
      rcases List.mem_append.mp member with first | second <;> simp [*]
    | _ => trivial

/-- A step of dns_task away from its walk. -/
theorem QueueInv.idles {a : Answer} {pc pc' : TaskPc}
    (inv : QueueInv ⟨g, pre ++ .task pc :: post⟩ queue [])
    (acted : taskStep .atVisit a g pc = some (g', pc')) (frame : Frame g g')
    (half : ∀ d, (Call.task pc' : Call Q A).half d = (Call.task pc : Call Q A).half d)
    (mine : pc'.At g' []) : QueueInv ⟨g', pre ++ .task pc' :: post⟩ queue [] := by
  refine inv.turn acted (fun d => ?_) ?_ mine (fun e known => (frame.links e known).1)
    frame.started fun d => ?_
  · rw [frame.lookups, half]
  · rw [frame.pAddCares]
    exact inv.queued.congr fun e member => (frame.links e (inv.known (.inl member))).1
  · rw [frame.pushes, frame.visits]
    exact inv.pushes d

/-- The queue goes over to the walk. -/
theorem QueueInv.detach {list : Option Nat}
    (inv : QueueInv ⟨g, pre ++ .task (.casCares list) :: post⟩ queue rest)
    (hit : g.pAddCares = list) :
    QueueInv ⟨{ g with pAddCares := none }, pre ++ .task (.walk list) :: post⟩ [] queue := by
  have none : rest = [] := inv.fits (.task (.casCares list)) (by simp)
  subst none
  refine inv.turn (a := ⟨⟨0, 0⟩, true⟩) (if_pos hit) (fun d => ?_) rfl (hit ▸ inv.queued)
    (fun _ _ => rfl) rfl fun d => ?_
  · simp only [List.count_nil, Nat.zero_add, Nat.add_zero, Call.half]
  · have before := inv.pushes d
    rw [List.count_nil] at before ⊢
    exact before.trans (Nat.add_right_comm ..)

/-- The first lookup of a visit. -/
theorem QueueInv.visit
    (inv : QueueInv ⟨g, pre ++ .task (.walk (some d)) :: post⟩ queue rest) :
    ∃ rest', rest = d :: rest' ∧ QueueInv ⟨lookUp .atVisit d { g with
      visits := Function.update g.visits d (g.visits d + 1) }, pre ++ .task (.second d) :: post⟩
        queue rest' := by
  have path : Path g.next (some d) rest := inv.fits (.task (.walk (some d))) (by simp)
  obtain ⟨rest', same, behind⟩ := path.cons
  subst same
  have counts : ∀ e, (d :: rest').count e = rest'.count e + if d = e then 1 else 0 := fun e => by
    rw [List.count_cons]
    simp only [beq_iff_eq]
  have granted : ∀ e, Function.update g.lookups d (g.lookups d + 1) e =
      g.lookups e + if d = e then 1 else 0 := fun e => by
    by_cases same : d = e
    · subst same
      rw [Function.update_self, if_pos rfl]
    · rw [Function.update_of_ne (Ne.symm same), if_neg same, Nat.add_zero]
  refine ⟨rest', rfl, inv.turn (a := ⟨⟨0, 0⟩, true⟩) rfl (fun e => ?_) inv.queued behind
    (fun _ _ => rfl) rfl fun e => ?_⟩
  · rw [counts]
    simp only [lookUp, if_true, DnsPrivate.grant, granted, Call.half]
    split <;> omega
  · have before := inv.pushes e
    rw [counts] at before
    simp only [lookUp, if_true, DnsPrivate.grant] at before ⊢
    by_cases same : d = e
    · subst same
      rw [if_pos rfl] at before
      rw [Function.update_self]
      omega
    · rw [if_neg same] at before
      rw [Function.update_of_ne (Ne.symm same)]
      omega

/-- The second lookup; until then the domain is in the table. -/
theorem QueueInv.secondLookup (inv : QueueInv ⟨g, pre ++ .task (.second d) :: post⟩ queue rest) :
    QueueInv ⟨lookUp .atVisit d g, pre ++ .task (.link d) :: post⟩ queue rest := by
  have some : 0 < owed ⟨g, pre ++ .task (.second d) :: post⟩ queue rest d := by
    rw [owed_split]
    simp only [Call.half, if_true]
    omega
  obtain ⟨known, alive⟩ := inv.alive some
  have path : Path g.next (g.next d) rest := inv.fits (.task (.second d)) (by simp)
  refine inv.turn (a := ⟨⟨0, 0⟩, true⟩) rfl (fun e => ?_) inv.queued ⟨path, known, alive⟩
    (fun _ _ => rfl) rfl inv.pushes
  simp only [lookUp, if_true, DnsPrivate.grant, Call.half, Nat.add_zero]
  by_cases same : d = e
  · subst same
    rw [Function.update_self, if_pos rfl]
  · rw [Function.update_of_ne (Ne.symm same), if_neg same, Nat.add_zero]

/-- The walk goes on behind the domain. -/
theorem QueueInv.goOn (inv : QueueInv ⟨g, pre ++ .task (.link d) :: post⟩ queue rest) :
    QueueInv ⟨g, pre ++ .task (.walk (g.next d)) :: post⟩ queue rest := by
  have fits : Path g.next (g.next d) rest ∧ _ := inv.fits (.task (.link d)) (by simp)
  exact inv.turn (a := ⟨⟨0, 0⟩, true⟩) rfl (fun _ => rfl) inv.queued fits.1 (fun _ _ => rfl) rfl
    inv.pushes

theorem taskStep_queue {a : Answer} {pc pc' : TaskPc}
    (inv : QueueInv ⟨g, pre ++ .task pc :: post⟩ queue rest)
    (acted : taskStep .atVisit a g pc = some (g', pc')) :
    ∃ queue' rest', QueueInv ⟨g', pre ++ .task pc' :: post⟩ queue' rest' := by
  have stands : pc.At g rest := inv.fits (.task pc) (by simp)
  cases pc with
  | readCares =>
    have none : rest = [] := stands
    subst none
    have moved := acted
    cases acted
    exact ⟨queue, [], inv.idles moved (.refl g) (fun _ => rfl) rfl⟩
  | casCares list =>
    by_cases hit : g.pAddCares = list
    · simp only [taskStep, if_pos hit] at acted
      cases acted
      exact ⟨[], queue, inv.detach hit⟩
    · have none : rest = [] := stands
      subst none
      have moved := acted
      simp only [taskStep, if_neg hit] at acted
      cases acted
      exact ⟨queue, [], inv.idles moved (.refl g) (fun _ => rfl) rfl⟩
  | walk list =>
    cases list with
    | none =>
      have none : rest = [] := Path.nil stands
      subst none
      have moved := acted
      cases acted
      exact ⟨queue, [], inv.idles moved (.refl g) (fun _ => rfl) rfl⟩
    | some d =>
      cases acted
      obtain ⟨rest', _, visited⟩ := inv.visit
      exact ⟨queue, rest', visited⟩
  | second d =>
    cases acted
    exact ⟨queue, rest, inv.secondLookup⟩
  | link d =>
    cases acted
    exact ⟨queue, rest, inv.goOn⟩
  | expire =>
    have none : rest = [] := stands
    subst none
    have moved := acted
    obtain ⟨r, ran, same⟩ := Option.map_eq_some_iff.mp acted
    cases same
    exact ⟨queue, [], inv.idles moved (expire_frame ran) (fun _ => rfl) rfl⟩
  | free dels =>
    have none : rest = [] := stands
    subst none
    have moved := acted
    cases dels with
    | nil =>
      cases acted
      exact ⟨queue, [], inv.idles moved (.refl g) (fun _ => rfl) rfl⟩
    | cons d dels =>
      cases acted
      refine ⟨queue, [], inv.turn moved (fun _ => rfl) ?_ rfl (fun e _ => free_next d e) rfl inv.pushes⟩
      exact inv.queued.congr fun e _ => free_next d e

theorem step_queue {a : Answer} (inv : QueueInv ⟨g, pre ++ l :: post⟩ queue rest)
    (spared : spares ⟨g, pre ++ l :: post⟩ l = true) (acted : step .atVisit a g l = some (g', l')) :
    ∃ queue' rest', QueueInv ⟨g', pre ++ l' :: post⟩ queue' rest' := by
  cases l with
  | get c =>
    obtain ⟨⟨g₁, c'⟩, moved, same⟩ := Option.map_eq_some_iff.mp acted
    cases same
    obtain ⟨queue', after⟩ := getStep_queue inv spared moved
    exact ⟨queue', rest, after⟩
  | cancel q pc =>
    obtain ⟨⟨g₁, pc'⟩, moved, same⟩ := Option.map_eq_some_iff.mp acted
    cases same
    refine ⟨queue, rest, inv.framed acted ⟨rfl, rfl⟩ (cancelStep_frame moved) (fun _ _ => rfl) trivial⟩
  | callback d addrs pc =>
    obtain ⟨⟨g₁, pc'⟩, moved, same⟩ := Option.map_eq_some_iff.mp acted
    cases same
    exact ⟨queue, rest, callbackStep_queue inv spared moved⟩
  | task pc =>
    obtain ⟨⟨g₁, pc'⟩, moved, same⟩ := Option.map_eq_some_iff.mp acted
    cases same
    exact taskStep_queue inv moved

theorem start_queue {ev : Event Q A} (inv : QueueInv ⟨g, ls⟩ queue rest)
    (started : start ev g = some (g', l)) : QueueInv ⟨g', ls ++ [l]⟩ queue rest := by
  have quiet : ∀ {g' : DnsPrivate Q A} {l : Call Q A}, g'.table = g.table → g'.age = g.age →
      g'.fresh = g.fresh → g'.domainNum = g.domainNum → g'.domains = g.domains →
      g'.pAddCares = g.pAddCares → g'.pushes = g.pushes → g'.visits = g.visits → l.Ok g' →
      (∀ d, g'.lookups d + l.asks d + l.half d = g.lookups d) → l.Fits g' rest →
      Config.total Call.tasks ⟨g, ls⟩ + l.tasks = (if g'.started then 1 else 0) →
      QueueInv ⟨g', ls ++ [l]⟩ queue rest := by
    intro g' l table age fresh num domains pAddCares pushes visits ok books mine tasks
    have next : g'.next = g.next := funext fun d => by rw [DnsPrivate.next, domains]; rfl
    refine ⟨inv.cache.congr table age fresh num (unchanged domains) fun d => ?_, ?_, ?_, ?_, ?_, ?_,
      fun d => ?_⟩
    · have same := books d
      simp only [owed, toCome, total_start _ g' g]
      omega
    · refine forall_start inv.calls ok fun call ok => ok.mono ?_
      exact ⟨Nat.le_of_eq fresh.symm, fun _ member => .inl (table ▸ member)⟩
    · rw [next, pAddCares]
      exact inv.queued
    · refine forall_start inv.fits mine fun call fits => fits.congr (fun e _ => by rw [next]) ?_ ?_
      · exact Nat.le_of_eq fresh.symm
      · exact fun d _ => by rw [domains]
    · rw [total_start _ g' g]
      exact tasks
    · rw [total_start _ g' g]
      exact fun none => inv.idle (Nat.eq_zero_of_add_eq_zero_right none)
    · rw [pushes, visits]
      exact inv.pushes d
  have tasks := inv.tasks
  cases ev with
  | get given q host clearCache dontUseCache tv =>
    simp only [start] at started
    split at started
    · contradiction
    · split at started
      all_goals
        cases started
        refine quiet rfl rfl rfl rfl rfl rfl rfl rfl ⟨?_, (by simp), (by rintro ⟨⟩)⟩ (fun d => rfl) (by rintro _ ⟨⟩) tasks
      · exact fun _ => ⟨rfl, rfl, rfl⟩
      · simp
  | cancel q =>
    simp only [start] at started
    split at started
    · cases started
      exact quiet rfl rfl rfl rfl rfl rfl rfl rfl trivial (fun d => rfl) trivial tasks
    · contradiction
  | callback d addrs =>
    simp only [start] at started
    split at started
    · contradiction
    next some =>
      cases started
      refine quiet rfl rfl rfl rfl rfl rfl rfl rfl trivial (fun e => ?_) trivial tasks
      simp only [Call.asks, Call.half, Nat.add_zero]
      by_cases same : e = d
      · subst same
        rw [Function.update_self, if_pos rfl]
        omega
      · rw [Function.update_of_ne same, if_neg (Ne.symm same), Nat.add_zero]
  | task =>
    simp only [start] at started
    split at started
    · contradiction
    next first =>
      cases started
      have none : Config.total Call.tasks ⟨g, ls⟩ = 0 := by
        rw [tasks]
        exact if_neg first
      refine quiet rfl rfl rfl rfl rfl rfl rfl rfl trivial (fun d => rfl) (inv.idle none) ?_
      rw [none]
      rfl

omit [DecidableEq Q] in
theorem initial_queue : QueueInv (⟨initial, []⟩ : Config (DnsPrivate Q A) (Call Q A)) [] [] where
  cache := initial_cache
  calls _ member := absurd member List.not_mem_nil
  queued := rfl
  fits _ member := absurd member List.not_mem_nil
  tasks := rfl
  idle _ := rfl
  pushes _ := rfl

theorem runs_queue {s : Config (DnsPrivate Q A) (Call Q A)}
    (run : (dns Q A .atVisit).ReachesWhere (fun s l => spares s l = true) ⟨initial, []⟩ s) :
    ∃ queue rest, QueueInv s queue rest := by
  refine Program.ReachesWhere.invariant (I := fun s => ∃ queue rest, QueueInv s queue rest)
    ?_ ?_ ?_ run
  · exact ⟨[], [], initial_queue⟩
  · rintro ev g g' l ls ⟨queue, rest, inv⟩ started
    exact ⟨queue, rest, start_queue inv started⟩
  · rintro a g g' l l' pre post ⟨queue, rest, inv⟩ spared acted
    exact step_queue inv spared acted

omit [DecidableEq Q] in
theorem spares_task (s : Config (DnsPrivate Q A) (Call Q A)) (pc : TaskPc) :
    spares s (.task pc) = true := by
  refine List.all_eq_true.mpr fun x _ => ?_
  cases x.visiting with
  | none => rfl
  | some d => rfl

/-- A turn of dns_task in its surroundings. -/
theorem turn_reaches {a : Answer} {pc pc' : TaskPc} (pre post : List (Call Q A))
    (acted : taskStep .atVisit a g pc = some (g', pc')) :
    (dns Q A .atVisit).ReachesWhere (fun s l => spares s l = true)
      ⟨g, pre ++ .task pc :: post⟩ ⟨g', pre ++ .task pc' :: post⟩ := by
  have stepped : (dns Q A .atVisit).step a g (.task pc) = some (g', .task pc') := by
    simp only [dns, step, acted, Option.map_some]
  exact .single (.step (spares_task _ pc) stepped)

/-- By itself dns_task comes to the start of its loop, with all visits made that are before it. -/
def Returns (pre post : List (Call Q A)) (queue : List Nat) (g : DnsPrivate Q A) (pc : TaskPc) : Prop :=
  ∃ g', (dns Q A .atVisit).ReachesWhere (fun s l => spares s l = true)
      ⟨g, pre ++ .task pc :: post⟩ ⟨g', pre ++ .task .readCares :: post⟩ ∧
    g'.pushes = g.pushes ∧ QueueInv ⟨g', pre ++ .task .readCares :: post⟩ queue []

theorem Returns.after {a : Answer} {pc pc' : TaskPc} (acted : taskStep .atVisit a g pc = some (g', pc'))
    (pushes : g'.pushes = g.pushes) (later : Returns pre post queue g' pc') :
    Returns pre post queue g pc := by
  obtain ⟨g₂, run, same, inv⟩ := later
  exact ⟨g₂, (turn_reaches pre post acted).trans run, same.trans pushes, inv⟩

theorem free_returns {dels : List Nat} (inv : QueueInv ⟨g, pre ++ .task (.free dels) :: post⟩ queue []) :
    Returns pre post queue g (.free dels) := by
  have at' : Answer := ⟨⟨0, 0⟩, true⟩
  induction dels generalizing g with
  | nil =>
    have acted : taskStep .atVisit at' g (.free []) = some (g, .readCares) := rfl
    exact .after acted rfl ⟨g, .refl, rfl, inv.idles acted (.refl g) (fun _ => rfl) rfl⟩
  | cons d dels ih =>
    have acted : taskStep .atVisit at' g (.free (d :: dels)) = some (free d g, .free dels) := rfl
    refine .after acted rfl (ih ?_)
    refine inv.turn acted (fun _ => rfl) ?_ rfl (fun e _ => free_next d e) rfl inv.pushes
    exact inv.queued.congr fun e _ => free_next d e

theorem expire_returns (inv : QueueInv ⟨g, pre ++ .task .expire :: post⟩ queue []) :
    Returns pre post queue g .expire := by
  have none : ∀ d ∈ ([] : List Nat), Doomed g d := (by simp)
  obtain ⟨r, ran, _⟩ := expire_spec ⟨0 - dnsTimeoutS, 0⟩ inv.cache rfl none
  have acted : taskStep .atVisit ⟨⟨0, 0⟩, true⟩ g .expire = some (r.1, .free r.2) :=
    congrArg (Option.map fun r : DnsPrivate Q A × List Nat => (r.1, TaskPc.free r.2)) ran
  have frame : Frame g r.1 := expire_frame ran
  exact .after acted frame.pushes (free_returns (inv.idles acted frame (fun _ => rfl) rfl))

theorem walk_returns {list : Option Nat}
    (inv : QueueInv ⟨g, pre ++ .task (.walk list) :: post⟩ queue rest) :
    Returns pre post queue g (.walk list) := by
  have at' : Answer := ⟨⟨0, 0⟩, true⟩
  induction rest generalizing g list with
  | nil =>
    have path : list = none := inv.fits (.task (.walk list)) (by simp)
    subst path
    have acted : taskStep .atVisit at' g (.walk none) = some (g, .expire) := rfl
    exact .after acted rfl (expire_returns (inv.idles acted (.refl g) (fun _ => rfl) rfl))
  | cons d rest ih =>
    have path : Path g.next list (d :: rest) := inv.fits (.task (.walk list)) (by simp)
    cases path.1
    obtain ⟨rest', same, first⟩ := inv.visit
    cases same
    refine .after (a := at') rfl rfl ?_
    refine .after (a := at') rfl rfl ?_
    exact .after (a := at') rfl rfl (ih first.secondLookup.goOn)

theorem task_returns {pc : TaskPc} (inv : QueueInv ⟨g, pre ++ .task pc :: post⟩ queue rest) :
    ∃ queue', Returns pre post queue' g pc := by
  have stands : pc.At g rest := inv.fits (.task pc) (by simp)
  have at' : Answer := ⟨⟨0, 0⟩, true⟩
  cases pc with
  | readCares =>
    cases (show rest = [] from stands)
    exact ⟨queue, g, .refl, rfl, inv⟩
  | casCares list =>
    by_cases hit : g.pAddCares = list
    · have acted : taskStep .atVisit at' g (.casCares list) =
          some ({ g with pAddCares := none }, .walk list) := if_pos hit
      exact ⟨[], .after acted rfl (walk_returns (inv.detach hit))⟩
    · have acted : taskStep .atVisit at' g (.casCares list) = some (g, .readCares) := if_neg hit
      cases (show rest = [] from stands)
      exact ⟨queue, .after acted rfl
        ⟨g, .refl, rfl, inv.idles acted (.refl g) (fun _ => rfl) rfl⟩⟩
  | walk list => exact ⟨queue, walk_returns inv⟩
  | second d =>
    refine ⟨queue, .after (a := at') rfl rfl ?_⟩
    exact .after (a := at') rfl rfl (walk_returns inv.secondLookup.goOn)
  | link d => exact ⟨queue, .after (a := at') rfl rfl (walk_returns inv.goOn)⟩
  | expire =>
    cases (show rest = [] from stands)
    exact ⟨queue, expire_returns inv⟩
  | free dels =>
    cases (show rest = [] from stands)
    exact ⟨queue, free_returns inv⟩

/-- By itself dns_task comes to a state in which all that has been pushed is visited. -/
theorem task_visits {pc : TaskPc} (inv : QueueInv ⟨g, pre ++ .task pc :: post⟩ queue rest) :
    ∃ g', (dns Q A .atVisit).ReachesWhere (fun s l => spares s l = true)
        ⟨g, pre ++ .task pc :: post⟩ ⟨g', pre ++ .task .readCares :: post⟩ ∧
      g'.pushes = g.pushes ∧ ∀ d, g'.visits d = g.pushes d := by
  have at' : Answer := ⟨⟨0, 0⟩, true⟩
  obtain ⟨queue₁, g₁, run, pushes, inv₁⟩ := task_returns inv
  have reads : taskStep .atVisit at' g₁ .readCares = some (g₁, .casCares g₁.pAddCares) := rfl
  have detached := (inv₁.idles reads (.refl g₁) (fun _ => rfl) rfl).detach rfl
  obtain ⟨g₂, again, same, inv₂⟩ := walk_returns detached
  have taken : taskStep .atVisit at' g₁ (.casCares g₁.pAddCares) =
      some ({ g₁ with pAddCares := none }, .walk g₁.pAddCares) := if_pos rfl
  have second := ((turn_reaches pre post reads).trans (turn_reaches pre post taken)).trans again
  have kept : g₂.pushes = g.pushes := same.trans pushes
  refine ⟨g₂, run.trans second, kept, fun d => ?_⟩
  have books : g₂.pushes d = g₂.visits d := inv₂.pushes d
  exact books.symm.trans (congrFun kept d)

/-- In a run that spares the visited domains, the pushes without a visit are in the queue or
before the walk, the walk reads the links of living domains, and dns_task by itself makes
all visits. -/
theorem dns_queue {s : Config (DnsPrivate Q A) (Call Q A)}
    (run : (dns Q A .atVisit).ReachesWhere (fun s l => spares s l = true) ⟨initial, []⟩ s) :
    (∃ queue rest, Path s.shared.next s.shared.pAddCares queue ∧
      (∀ pc, .task pc ∈ s.calls → pc.At s.shared rest) ∧
      ∀ d, s.shared.pushes d = s.shared.visits d + queue.count d + rest.count d) ∧
    (∀ d, .task (.link d) ∈ s.calls → (s.shared.domains d).freed = false) ∧
    ∃ s', (dns Q A .atVisit).ReachesWhere (fun s l => spares s l = true) s s' ∧
      s'.shared.pushes = s.shared.pushes ∧ ∀ d, s'.shared.visits d = s.shared.pushes d := by
  obtain ⟨queue, rest, inv⟩ := runs_queue run
  refine ⟨⟨queue, rest, inv.queued, fun pc member => inv.fits _ member, inv.pushes⟩, ?_, ?_⟩
  · intro d member
    have fits : (TaskPc.link d).At s.shared rest := inv.fits _ member
    exact fits.2.2
  · obtain ⟨g, ls⟩ := s
    have visited : ∀ {g₁ : DnsPrivate Q A} {pre post : List (Call Q A)} {pc : TaskPc}
        {queue rest : List Nat}, QueueInv ⟨g₁, pre ++ .task pc :: post⟩ queue rest →
        g₁.pushes = g.pushes → (dns Q A .atVisit).ReachesWhere (fun s l => spares s l = true)
          ⟨g, ls⟩ ⟨g₁, pre ++ .task pc :: post⟩ →
        ∃ s', (dns Q A .atVisit).ReachesWhere (fun s l => spares s l = true) ⟨g, ls⟩ s' ∧
          s'.shared.pushes = g.pushes ∧ ∀ d, s'.shared.visits d = g.pushes d := by
      intro g₁ pre post pc queue rest inv pushes first
      obtain ⟨g₂, later, same, visits⟩ := task_visits inv
      exact ⟨_, first.trans later, same.trans pushes, fun d => (visits d).trans (congrFun pushes d)⟩
    by_cases begun : g.started = true
    · have one : 0 < Config.total Call.tasks ⟨g, ls⟩ := by
        rw [inv.tasks, if_pos begun]
        exact Nat.zero_lt_one
      obtain ⟨l, member, some⟩ := exists_of_total_pos one
      obtain ⟨pre, post, rfl⟩ := List.append_of_mem member
      cases l with
      | task pc => exact visited inv rfl .refl
      | _ => contradiction
    · have started : start (.task : Event Q A) g = some ({ g with started := true }, .task .readCares) :=
        if_neg begun
      have first : (dns Q A .atVisit).StepWhere (fun s l => spares s l = true) ⟨g, ls⟩
          ⟨{ g with started := true }, ls ++ [.task .readCares]⟩ :=
        Program.StepWhere.start (p := dns Q A .atVisit) (e := .task) started
      exact visited (start_queue inv started) rfl (.single first)

end

/-- A domain that is queued and visited, up to the read of its link. -/
def oneVisit : List (Event Nat Nat ⊕ Nat × Answer) :=
  let now : Answer := ⟨⟨7, 0⟩, true⟩
  List.flatten [[.inl (.get true 0 (.name ['a']) false false none)], Program.turns 0 6 now,
    [.inl .task], Program.turns 1 4 now]

theorem dns_queue_oneVisit : ∃ s : Config (DnsPrivate Nat Nat) (Call Nat Nat),
    (dns Nat Nat .atVisit).ReachesWhere (fun s l => spares s l = true) ⟨initial, []⟩ s ∧
      s.shared.pushes 0 = 1 ∧ s.shared.visits 0 = 1 ∧ .task (.link 0) ∈ s.calls ∧
      (s.shared.domains 0).freed = false := by
  have executed : ((dns Nat Nat .atVisit).execWhere spares oneVisit ⟨initial, []⟩).map
      (fun s => (s.shared.pushes 0, s.shared.visits 0, decide (.task (.link 0) ∈ s.calls))) =
        some (1, 1, true) := rfl
  obtain ⟨s, executed, left⟩ := Option.map_eq_some_iff.mp executed
  simp only [Prod.mk.injEq, decide_eq_true_eq] at left
  have run := Program.execWhere_reaches executed
  exact ⟨s, run, left.1, left.2.1, left.2.2, (dns_queue run).2.1 0 left.2.2⟩

/-- Both lookups of a visit fail while ares_gethostbyname runs. -/
def failAtOnce : List (Event Nat Nat ⊕ Nat × Answer) :=
  let now : Answer := ⟨⟨7, 0⟩, true⟩
  List.flatten [[.inl (.get true 0 (.name ['a']) false false none)], Program.turns 0 6 now,
    [.inl .task], Program.turns 1 3 now, [.inl (.callback 0 none)], Program.turns 2 3 now,
    [.inr (1, now), .inl (.callback 0 none)], Program.turns 3 4 now]

theorem dns_queue_failAtOnce : ∃ s : Config (DnsPrivate Nat Nat) (Call Nat Nat),
    (dns Nat Nat .atVisit).Reaches ⟨initial, []⟩ s ∧ .task (.link 0) ∈ s.calls ∧
      (s.shared.domains 0).freed = true := by
  have executed : ((dns Nat Nat .atVisit).exec (fun _ => True) failAtOnce ⟨initial, []⟩).map
      (fun s => (decide (.task (.link 0) ∈ s.calls), (s.shared.domains 0).freed)) =
        some (true, true) := rfl
  obtain ⟨s, executed, left⟩ := Option.map_eq_some_iff.mp executed
  simp only [Prod.mk.injEq, decide_eq_true_eq] at left
  exact ⟨s, (Program.exec_reaches executed).reaches, left⟩

end MoonInWater.Dns
