import MoonInWater.Dns.AddrList

/-! merge_addrs joins two lists, and domain_callback leaves each list with one owner. -/
namespace MoonInWater.Dns.AddrList
open Chain DList Fuel
open RingBuffer (TimeVal)
variable {A P : Type}

/-! ## Lists in use -/

variable {h h' h'' : Heap A P} {a b : A} {l m : List P} {content : A → List P}

theorem mem_chainOf {p : P} : Node.elem p ∈ chainOf a l ↔ p ∈ l := by
  simp [chainOf]

theorem WellFormed.apart (first : WellFormed h a l) (second : WellFormed h b m)
    (other : a ≠ b) : ∀ x ∈ chainOf a l, x ∉ chainOf b m := by
  intro x inFirst inSecond
  have same := first.linked.eq_of_mem second.linked inFirst inSecond
  have heads : Node.head a = Node.head b := (List.cons.inj same).1
  exact other (Node.head.inj heads)

theorem WellFormed.congr (formed : WellFormed h a l) (n : h'.n a = h.n a)
    (links : ∀ x ∈ chainOf a l, h'.links x = h.links x) : WellFormed h' a l :=
  ⟨formed.linked.congr links, n.trans formed.n⟩

/-- A list that is in use: neither it nor an element of it is freed. -/
structure Stored (h : Heap A P) (a : A) (l : List P) : Prop where
  formed : WellFormed h a l
  live : h.freed a = false
  elems : ∀ p ∈ l, h.freedElem p = false

/-- What the loop of addrs_ref_dec has done. -/
structure Cleared (h h' : Heap A P) (a : A) (l : List P) : Prop where
  links : ∀ x ∉ chainOf a l, h'.links x = h.links x
  elems : ∀ p, h'.freedElem p = true ↔ p ∈ l ∨ h.freedElem p = true
  n : h'.n = h.n
  refNum : h'.refNum = h.refNum
  freed : h'.freed = h.freed

section
variable [DecidableEq A] [DecidableEq P]

theorem freeElems_spec (linked : Linked h.links none (chainOf a l) none) :
    ∃ h', Returns (fun fuel => freeElems a fuel (l.map Node.elem ++ [Node.tail a]).head? h) h' ∧
      Cleared h h' a l := by
  induction l generalizing h with
  | nil =>
    refine ⟨h, ?_, fun x _ => rfl, fun p => ?_, rfl, rfl, rfl⟩
    · apply Returns.of_add 1
      intro k
      simp [freeElems]
    · simp
  | cons p l ih =>
    have shape : chainOf a (p :: l) = [.head a] ++ .elem p :: (l.map .elem ++ [.tail a]) := rfl
    have distinct := linked.nodup
    rw [shape] at linked distinct
    obtain ⟨next, linked', _, frame⟩ := dlistDel_linked linked distinct
    obtain ⟨h', run, cleared⟩ := ih (h := { h with
      links := (dlistDel (.elem p) h.links).1
      freedElem := Function.update h.freedElem p true }) linked'
    refine ⟨h', ?_, fun x other => ?_, fun q => ?_, cleared.n, cleared.refNum, cleared.freed⟩
    · apply Returns.succ ?_ run
      intro fuel
      rw [← next]
      simp [freeElems]
    · have other' : x ∉ chainOf a l := by
        intro member
        apply other
        rcases List.mem_cons.mp member with rfl | member
        · exact List.mem_cons_self
        · exact List.mem_cons_of_mem _ (List.mem_cons_of_mem _ member)
      exact (cleared.links x other').trans (frame x other)
    · rw [cleared.elems, List.mem_cons]
      by_cases same : q = p
      · simp [same]
      · simp [same]

/-- The last reference takes the list and its elements with it. -/
theorem addrsRefDec_last (stored : WellFormed h a l) (one : h.refNum a = 1) :
    ∃ h', Returns (fun fuel => addrsRefDec fuel (some a) h) h' ∧
      (∀ x ∉ chainOf a l, h'.links x = h.links x) ∧
      (∀ p, h'.freedElem p = true ↔ p ∈ l ∨ h.freedElem p = true) ∧ h'.n = h.n ∧
      (∀ b, b ≠ a → h'.refNum b = h.refNum b) ∧ h'.freed = Function.update h.freed a true := by
  let lower := { h with refNum := Function.update h.refNum a (h.refNum a - 1) }
  obtain ⟨h', run, cleared⟩ := freeElems_spec (h := lower) stored.linked
  have next : (lower.links (.head a)).next = (l.map Node.elem ++ [Node.tail a]).head? :=
    congrArg Link.next stored.linked.head
  refine ⟨{ h' with freed := Function.update h'.freed a true }, ?_, cleared.links,
    cleared.elems, cleared.n, fun b other => ?_, ?_⟩
  · apply (run.map fun h' => { h' with freed := Function.update h'.freed a true }).imp
    intro fuel result
    rw [← result, ← next]
    simp [addrsRefDec, one, lower]
  · rw [cleared.refNum]
    exact Function.update_of_ne other ..
  · rw [cleared.freed]

end

/-- Each of the references is counted, and the lists they lead to are in use. -/
structure Owned [DecidableEq A] (h : Heap A P) (content : A → List P) (refs : List A) : Prop where
  counted : ∀ a ∈ refs, h.refNum a = refs.count a
  stored : ∀ a ∈ refs, Stored h a (content a)

/-- A list with no reference left is freed with its elements, and what is freed stays so. -/
structure Dropped (content : A → List P) (h h' : Heap A P) (refs refs' : List A) : Prop where
  freed : ∀ a, h.freed a = true → h'.freed a = true
  elems : ∀ p, h.freedElem p = true → h'.freedElem p = true
  released : ∀ a ∈ refs, a ∉ refs' →
    h'.freed a = true ∧ ∀ p ∈ content a, h'.freedElem p = true

variable {refs refs' refs'' : List A}

theorem Dropped.of_same (freed : h'.freed = h.freed) (elems : h'.freedElem = h.freedElem)
    (kept : ∀ a ∈ refs, a ∈ refs') : Dropped content h h' refs refs' where
  freed a before := by rw [freed, before]
  elems p before := by rw [elems, before]
  released a member gone := absurd (kept a member) gone

theorem Dropped.trans (first : Dropped content h h' refs refs')
    (second : Dropped content h' h'' refs' refs'') : Dropped content h h'' refs refs'' where
  freed a before := second.freed a (first.freed a before)
  elems p before := second.elems p (first.elems p before)
  released a member gone := by
    by_cases between : a ∈ refs'
    · exact second.released a between gone
    · obtain ⟨freed, elems⟩ := first.released a member between
      exact ⟨second.freed a freed, fun p inside => second.elems p (elems p inside)⟩

theorem Dropped.perm (dropped : Dropped content h h' refs refs') (perm : refs''.Perm refs) :
    Dropped content h h' refs'' refs' :=
  ⟨dropped.freed, dropped.elems, fun a member => dropped.released a (perm.mem_iff.mp member)⟩

section
variable [DecidableEq A]

theorem Owned.perm (owned : Owned h content refs) (perm : refs.Perm refs') :
    Owned h content refs' where
  counted a member := by
    rw [← perm.count_eq a]
    exact owned.counted a (perm.mem_iff.mpr member)
  stored a member := owned.stored a (perm.mem_iff.mpr member)

theorem addrsRefInc_freed (pAddrs : Option A) : (addrsRefInc pAddrs h).freed = h.freed := by
  cases pAddrs with
  | none => rfl
  | some a => rfl

theorem addrsRefInc_freedElem (pAddrs : Option A) :
    (addrsRefInc pAddrs h).freedElem = h.freedElem := by
  cases pAddrs with
  | none => rfl
  | some a => rfl

theorem Stored.addrsRefInc (stored : Stored h a l) (pAddrs : Option A) :
    Stored (addrsRefInc pAddrs h) a l := by
  cases pAddrs with
  | none => exact stored
  | some b => exact ⟨⟨stored.formed.linked, stored.formed.n⟩, stored.live, stored.elems⟩

/-- A further reference to a list that is in use. -/
theorem Owned.inc (owned : Owned h content refs) (member : a ∈ refs) :
    Owned (addrsRefInc (some a) h) content (a :: refs) := by
  have known : ∀ b ∈ a :: refs, b ∈ refs := by
    intro b inside
    rcases List.mem_cons.mp inside with rfl | inside
    · exact member
    · exact inside
  constructor
  · intro b inside
    by_cases same : b = a
    · subst same
      simp [AddrList.addrsRefInc, owned.counted b member]
    · rw [List.count_cons_of_ne (Ne.symm same), ← owned.counted b (known b inside)]
      exact Function.update_of_ne same ..
  · intro b inside
    exact (owned.stored b (known b inside)).addrsRefInc _

theorem Owned.incs (owned : Owned h content refs) (member : a ∈ refs) (k : Nat) :
    Owned ((addrsRefInc (some a))^[k] h) content (List.replicate k a ++ refs) := by
  induction k with
  | zero => exact owned
  | succ k ih =>
    rw [Function.iterate_succ_apply', List.replicate_succ, List.cons_append]
    exact ih.inc (List.mem_append_right _ member)

/-- A list that is not the freed one stays in use. -/
theorem Stored.of_last (stored : Stored h b m) (formed : WellFormed h a l) (other : b ≠ a)
    (links : ∀ x ∉ chainOf a l, h'.links x = h.links x)
    (elems : ∀ p, h'.freedElem p = true ↔ p ∈ l ∨ h.freedElem p = true) (n : h'.n = h.n)
    (freed : h'.freed = Function.update h.freed a true) : Stored h' b m := by
  have apart := stored.formed.apart formed other
  constructor
  · apply stored.formed.congr (congrFun n b)
    exact fun x member => links x (apart x member)
  · rw [freed, Function.update_of_ne other, stored.live]
  · intro p member
    apply Bool.eq_false_iff.mpr
    intro gone
    rcases (elems p).mp gone with inside | before
    · exact apart _ (mem_chainOf.mpr member) (mem_chainOf.mpr inside)
    · exact Bool.false_ne_true ((stored.elems p member).symm.trans before)

/-- The listeners of the queries take their references one after the other. -/
theorem Owned.told (owned : Owned h content (a :: refs)) (queries : List Nat) :
    let told := queries.foldl (fun h taken => (addrsRefInc (some a))^[taken] h) h
    Owned told content (a :: (List.replicate queries.sum a ++ refs)) ∧
      told.freed = h.freed ∧ told.freedElem = h.freedElem := by
  induction queries generalizing h refs with
  | nil => exact ⟨owned, rfl, rfl⟩
  | cons taken queries ih =>
    have quiet : ∀ k, ((addrsRefInc (some a))^[k] h).freed = h.freed ∧
        ((addrsRefInc (some a))^[k] h).freedElem = h.freedElem := by
      intro k
      induction k with
      | zero => exact ⟨rfl, rfl⟩
      | succ k before =>
        rw [Function.iterate_succ_apply']
        exact before
    have next := (owned.incs List.mem_cons_self taken).perm List.perm_middle
    obtain ⟨owned', freed, freedElem⟩ := ih next
    constructor
    · have sums : List.replicate queries.sum a ++ (List.replicate taken a ++ refs) =
          List.replicate (taken :: queries).sum a ++ refs := by
        rw [← List.append_assoc, List.replicate_append_replicate, List.sum_cons, Nat.add_comm]
      rwa [sums] at owned'
    · exact ⟨freed.trans (quiet taken).1, freedElem.trans (quiet taken).2⟩

theorem Owned.congr (owned : Owned h content refs) (links : h'.links = h.links) (n : h'.n = h.n)
    (freed : h'.freed = h.freed) (freedElem : h'.freedElem = h.freedElem)
    (refNum : h'.refNum = h.refNum) : Owned h' content refs where
  counted a member := (congrFun refNum a).trans (owned.counted a member)
  stored a member := by
    have before := owned.stored a member
    constructor
    · exact before.formed.congr (congrFun n a) fun x _ => congrFun links x
    · exact (congrFun freed a).trans before.live
    · exact fun p inside => (congrFun freedElem p).trans (before.elems p inside)

variable [DecidableEq P]

/-- A reference is dropped. -/
theorem Owned.dec (owned : Owned h content (a :: refs)) :
    ∃ h', Returns (fun fuel => addrsRefDec fuel (some a) h) h' ∧ Owned h' content refs ∧
      Dropped content h h' (a :: refs) refs := by
  have counted := owned.counted a List.mem_cons_self
  rw [List.count_cons_self] at counted
  have stored := owned.stored a List.mem_cons_self
  by_cases more : a ∈ refs
  · have several : 0 < refs.count a := List.count_pos_iff.mpr more
    refine ⟨{ h with refNum := Function.update h.refNum a (h.refNum a - 1) }, ?_, ?_, ?_⟩
    · apply Returns.of_eq
      intro fuel
      have left : h.refNum a - 1 ≠ 0 := by omega
      simp [addrsRefDec, left]
    · constructor
      · intro b member
        by_cases same : b = a
        · subst same
          simp only [Function.update_self]
          omega
        · have before := owned.counted b (List.mem_cons_of_mem _ member)
          rw [List.count_cons_of_ne (Ne.symm same)] at before
          exact (Function.update_of_ne same ..).trans before
      · intro b member
        have before := owned.stored b (List.mem_cons_of_mem _ member)
        exact ⟨⟨before.formed.linked, before.formed.n⟩, before.live, before.elems⟩
    · refine Dropped.of_same ?_ ?_ fun b member => ?_
      · rfl
      · rfl
      rcases List.mem_cons.mp member with rfl | member
      · exact more
      · exact member
  · rw [List.count_eq_zero_of_not_mem more] at counted
    obtain ⟨h', run, links, elems, n, refNum, freed⟩ :=
      addrsRefDec_last stored.formed (counted.trans (by omega))
    have other : ∀ b ∈ refs, b ≠ a := by
      intro b member same
      exact more (same ▸ member)
    refine ⟨h', run, ⟨fun b member => ?_, fun b member => ?_⟩, ⟨fun b before => ?_,
      fun p before => (elems p).mpr (.inr before), fun b member gone => ?_⟩⟩
    · have before := owned.counted b (List.mem_cons_of_mem _ member)
      rw [List.count_cons_of_ne (other b member).symm] at before
      exact (refNum b (other b member)).trans before
    · exact (owned.stored b (List.mem_cons_of_mem _ member)).of_last stored.formed
        (other b member) links elems n freed
    · rw [freed]
      by_cases same : b = a
      · rw [same, Function.update_self]
      · rw [Function.update_of_ne same, before]
    · rcases List.mem_cons.mp member with rfl | member
      · exact ⟨by rw [freed, Function.update_self], fun p inside => (elems p).mpr (.inl inside)⟩
      · exact absurd member gone

theorem Owned.dec_toList (owned : Owned h content (pAddrs.toList ++ refs)) :
    ∃ h', Returns (fun fuel => addrsRefDec fuel pAddrs h) h' ∧ Owned h' content refs ∧
      Dropped content h h' (pAddrs.toList ++ refs) refs := by
  cases pAddrs with
  | none => exact ⟨h, .of_eq fun _ => rfl, owned, .of_same rfl rfl fun _ member => member⟩
  | some a => exact owned.dec

/-- The listeners keep their references, and the one given to notice_user is gone. -/
theorem noticeUser_spec (owned : Owned h content (pAddrs.toList ++ refs)) (queries : List Nat) :
    ∃ h', Returns (fun fuel => noticeUser fuel queries pAddrs h) h' ∧
      Owned h' content (pAddrs.toList.flatMap (List.replicate queries.sum) ++ refs) ∧
      Dropped content h h' (pAddrs.toList ++ refs)
        (pAddrs.toList.flatMap (List.replicate queries.sum) ++ refs) := by
  cases pAddrs with
  | none =>
    have idle : ∀ queries : List Nat,
        queries.foldl (fun h taken => (addrsRefInc none)^[taken] h) h = h := by
      intro queries
      induction queries with
      | nil => rfl
      | cons taken queries ih => rwa [List.foldl_cons, Function.iterate_fixed rfl]
    refine ⟨h, .of_eq fun fuel => ?_, owned, .of_same rfl rfl fun _ member => member⟩
    rw [noticeUser, idle, addrsRefDec]
  | some a =>
    obtain ⟨told, freed, freedElem⟩ := owned.told queries
    obtain ⟨h', run, owned', dropped⟩ := told.dec
    rw [Option.toList_some, List.flatMap_singleton]
    refine ⟨h', run, owned', Dropped.trans (.of_same freed freedElem ?_) dropped⟩
    intro b member
    rcases List.mem_cons.mp member with rfl | member
    · exact List.mem_cons_self
    · exact List.mem_cons_of_mem _ (List.mem_append_right _ member)

end

/-! ## merge_addrs -/

/-- Nothing of the list is written. -/
structure Untouched (h h' : Heap A P) (a : A) (l : List P) : Prop where
  links : ∀ x ∈ chainOf a l, h'.links x = h.links x
  elems : ∀ p ∈ l, h'.freedElem p = h.freedElem p
  n : h'.n a = h.n a
  tv : h'.tv a = h.tv a
  refNum : h'.refNum a = h.refNum a
  freed : h'.freed a = h.freed a

theorem Untouched.formed (same : Untouched h h' a l) (formed : WellFormed h a l) :
    WellFormed h' a l := formed.congr same.n same.links

theorem Untouched.stored (same : Untouched h h' a l) (stored : Stored h a l) : Stored h' a l where
  formed := same.formed stored.formed
  live := same.freed.trans stored.live
  elems p member := (same.elems p member).trans (stored.elems p member)

/-- The elements of `b` are behind those of `a`, and `b` is empty. -/
structure Joined (h h' : Heap A P) (a b : A) (l m : List P) : Prop where
  whole : WellFormed h' a (l ++ m)
  empty : WellFormed h' b []
  refNum : h'.refNum = h.refNum
  freed : h'.freed = h.freed
  freedElem : h'.freedElem = h.freedElem
  others : ∀ c k, WellFormed h c k → c ≠ a → c ≠ b → Untouched h h' c k

section
variable [DecidableEq A] [DecidableEq P] {domain : DomainAddrs A} {now : TimeVal}

theorem mergeAddrs_both (now : TimeVal) (domain : DomainAddrs A)
    (news : domain.pNewAddrs = some a) (first : WellFormed h a l)
    (second : WellFormed h b m) (other : a ≠ b) (some₂ : m ≠ []) :
    ∃ h', mergeAddrs now domain (some b) h =
      some ⟨h', { domain with pAddrs := some a, pNewAddrs := none }, domain.pAddrs⟩ ∧
      Joined h h' a b l m := by
  have apart := first.apart second other
  have front : Node.head a :: l.map .elem ≠ [] := List.cons_ne_nil _ _
  have back : m.map (Node.elem (A := A)) ≠ [] := by
    intro none
    exact some₂ (List.map_eq_nil_iff.mp none)
  obtain ⟨links, result, whole, empty, frame⟩ :=
    spliceLinks_spec first.linked second.linked front back apart
  refine ⟨{ h with
    links := links
    n := Function.update (Function.update h.n b 0) a (h.n b + h.n a)
    tv := Function.update h.tv a now }, ?_, ?_, ?_, rfl, rfl, rfl, ?_⟩
  · simp [mergeAddrs, mergeNew, news, result]
  · constructor
    · simpa [chainOf] using whole
    · simp only [Function.update_self, first.n, second.n, List.length_append]
      omega
  · constructor
    · exact empty
    · simp [Function.update_of_ne other.symm]
  · intro c k formed notA notB
    constructor
    · intro x member
      exact frame x (formed.apart first notA x member) (formed.apart second notB x member)
    · exact fun _ _ => rfl
    · simp [Function.update_of_ne notA, Function.update_of_ne notB]
    · simp [Function.update_of_ne notA]
    · rfl
    · rfl

/-- With one of the two lists, or none, merge_addrs writes no link. -/
theorem mergeAddrs_one (now : TimeVal) (domain : DomainAddrs A) {news pAddrs : Option A}
    (have₁ : domain.pNewAddrs = news)
    (one : news = none ∨ pAddrs = none) :
    ∃ h', mergeAddrs now domain pAddrs h =
      some ⟨h', { domain with pAddrs := news.or pAddrs, pNewAddrs := none }, domain.pAddrs⟩ ∧
      h'.links = h.links ∧ h'.n = h.n ∧ h'.freed = h.freed ∧ h'.freedElem = h.freedElem ∧
      h'.refNum = (addrsRefInc pAddrs h).refNum ∧
      ∀ c, news.or pAddrs ≠ some c → h'.tv c = h.tv c := by
  subst have₁
  obtain ⟨status, old, news⟩ := domain
  cases pAddrs with
  | none =>
    cases news with
    | none => exact ⟨h, rfl, rfl, rfl, rfl, rfl, rfl, fun _ _ => rfl⟩
    | some a =>
      refine ⟨{ h with tv := Function.update h.tv a now }, rfl, rfl, rfl, rfl, rfl, rfl, ?_⟩
      intro c other
      exact Function.update_of_ne (fun same => other (congrArg some same.symm)) ..
  | some b =>
    have none : news = none := by simpa using one
    subst none
    refine ⟨{ addrsRefInc (some b) h with tv := Function.update h.tv b now }, rfl, rfl, rfl,
      rfl, rfl, rfl, ?_⟩
    intro c other
    exact Function.update_of_ne (fun same => other (congrArg some same.symm)) ..

/-- What the lists hold after a merge. -/
def joinedContent (pNewAddrs pAddrs : Option A) (content : A → List P) : A → List P :=
  match pNewAddrs, pAddrs with
  | some a, some b => Function.update (Function.update content a (content a ++ content b)) b []
  | _, _ => content

/-- The lists that a domain has a reference to. -/
def DomainAddrs.owned (domain : DomainAddrs A) : List A :=
  domain.pAddrs.toList ++ domain.pNewAddrs.toList

omit [DecidableEq P] in
theorem Joined.stored {c : A} (joined : Joined h h' a b (content a) (content b))
    (first : Stored h a (content a)) (second : Stored h b (content b)) (other : a ≠ b)
    (third : Stored h c (content c)) :
    Stored h' c (joinedContent (some a) (some b) content c) := by
  simp only [joinedContent]
  by_cases isB : c = b
  · subst isB
    rw [Function.update_self]
    refine ⟨joined.empty, ?_, fun p member => absurd member List.not_mem_nil⟩
    rw [joined.freed, third.live]
  · rw [Function.update_of_ne isB]
    by_cases isA : c = a
    · subst isA
      rw [Function.update_self]
      refine ⟨joined.whole, ?_, fun p member => ?_⟩
      · rw [joined.freed, third.live]
      · rw [joined.freedElem]
        rcases List.mem_append.mp member with member | member
        · exact first.elems p member
        · exact second.elems p member
    · rw [Function.update_of_ne isA]
      exact (joined.others c (content c) third.formed isA isB).stored third

/-- merge_addrs hands the references on, and adds one to a list that is alone in the argument. -/
theorem mergeAddrs_owned (now : TimeVal) (domain : DomainAddrs A) {pAddrs : Option A}
    (owned : Owned h content (domain.owned ++ (pAddrs.toList ++ refs)))
    (distinct : ∀ a b, domain.pNewAddrs = some a → pAddrs = some b → a ≠ b)
    (filled : ∀ b, pAddrs = some b → content b ≠ []) :
    ∃ h', mergeAddrs now domain pAddrs h = some ⟨h', { domain with
        pAddrs := domain.pNewAddrs.or pAddrs
        pNewAddrs := none }, domain.pAddrs⟩ ∧
      Owned h' (joinedContent domain.pNewAddrs pAddrs content)
        ((domain.pNewAddrs.or pAddrs).toList ++
          (domain.pAddrs.toList ++ (pAddrs.toList ++ refs))) ∧
      h'.freed = h.freed ∧ h'.freedElem = h.freedElem := by
  obtain ⟨status, old, news⟩ := domain
  have known : ∀ b, b ∈ pAddrs.toList →
      b ∈ (old.toList ++ news.toList) ++ (pAddrs.toList ++ refs) :=
    fun b member => List.mem_append_right _ (List.mem_append_left _ member)
  have alone : news = none ∨ pAddrs = none →
      ∃ h', mergeAddrs now ⟨status, old, news⟩ pAddrs h =
        some ⟨h', ⟨status, news.or pAddrs, none⟩, old⟩ ∧
        (∀ rs, Owned (addrsRefInc pAddrs h) content rs → Owned h' content rs) ∧
        h'.freed = h.freed ∧ h'.freedElem = h.freedElem := by
    intro one
    obtain ⟨h', run, links, n, freed, freedElem, refNum, _⟩ :=
      mergeAddrs_one (h := h) now ⟨status, old, news⟩ rfl one
    refine ⟨h', run, fun rs here => ?_, freed, freedElem⟩
    apply here.congr
    · cases pAddrs <;> exact links
    · cases pAddrs <;> exact n
    · rw [freed, addrsRefInc_freed]
    · rw [freedElem, addrsRefInc_freedElem]
    · exact refNum
  cases news with
  | none =>
    obtain ⟨h', run, keeps, freed, freedElem⟩ := alone (.inl rfl)
    refine ⟨h', run, keeps _ ?_, freed, freedElem⟩
    cases pAddrs with
    | none => simpa [DomainAddrs.owned, addrsRefInc] using owned
    | some b => simpa [DomainAddrs.owned] using owned.inc (known b (by simp))
  | some a =>
    cases pAddrs with
    | none =>
      obtain ⟨h', run, keeps, freed, freedElem⟩ := alone (.inr rfl)
      refine ⟨h', run, keeps _ (owned.perm ?_), freed, freedElem⟩
      simp [DomainAddrs.owned]
    | some b =>
      have other := distinct a b rfl rfl
      have first := owned.stored a (by simp [DomainAddrs.owned])
      have second := owned.stored b (by simp [DomainAddrs.owned])
      obtain ⟨h', run, joined⟩ := mergeAddrs_both now ⟨status, old, some a⟩
        rfl first.formed second.formed other (filled b rfl)
      have moved : (DomainAddrs.owned ⟨status, old, some a⟩ ++ ((some b).toList ++ refs)).Perm
          ((some a).toList ++ (old.toList ++ ((some b).toList ++ refs))) := by
        simp [DomainAddrs.owned]
      refine ⟨h', run, ⟨fun c member => ?_, fun c member => ?_⟩, joined.freed, joined.freedElem⟩
      · rw [joined.refNum]
        exact (owned.perm moved).counted c member
      · exact joined.stored first second other ((owned.perm moved).stored c member)

end

/-! ## domain_callback -/

/-- Only between the answers of the two lookups is there something in p_new_addrs. -/
def DomainAddrs.Settled (domain : DomainAddrs A) : Prop :=
  domain.status ≠ domainQuery1 → domain.status ≠ domainNewQuery1 → domain.pNewAddrs = none

/-- Whether the callback is the one that merges the answers. -/
def DomainAddrs.Merges (domain : DomainAddrs A) : Prop :=
  domain.status = domainNewQuery1 ∨ domain.status = domainQuery1

instance (domain : DomainAddrs A) : Decidable domain.Merges :=
  inferInstanceAs (Decidable (_ ∨ _))

/-- The lists of the other domains. -/
def Domains.others (ds : Domains A) : List A := (ds.age ++ ds.off).flatMap DomainAddrs.owned

def Domains.owned (ds : Domains A) : List A := ds.domain.owned ++ ds.others

/-- The state of the domains between two callbacks: each list has one owner among them, and
each further reference is one of `taken`. -/
structure Sound [DecidableEq A] (h : Heap A P) (content : A → List P) (ds : Domains A)
    (taken : List A) : Prop where
  once : ds.owned.Nodup
  owned : Owned h content (ds.owned ++ taken)
  filled : ∀ a ∈ ds.owned, content a ≠ []
  settled : ds.domain.Settled ∧ ∀ d ∈ ds.age ++ ds.off, d.Settled
  aged : ∀ d ∈ ds.age, domainQuery2 ≤ d.status

/-- What leaves the age list is not waiting for its second answer, or stays in memory. -/
theorem putBack_spec [DecidableEq A] (ds : Domains A) (settled : ∀ d ∈ ds.age ++ ds.off, d.Settled)
    (aged : ∀ d ∈ ds.age, domainQuery2 ≤ d.status) :
    (putBack ds).1.domain = ds.domain ∧
      ds.others.Perm ((putBack ds).2.toList ++ (putBack ds).1.others) ∧
      (∀ d ∈ (putBack ds).1.age ++ (putBack ds).1.off, d.Settled) ∧
      ∀ d ∈ (putBack ds).1.age, domainQuery2 ≤ d.status := by
  obtain ⟨domain, age, off⟩ := ds
  cases age with
  | nil => exact ⟨rfl, List.Perm.refl _, settled, aged⟩
  | cons old age =>
    have first : old.Settled := settled old List.mem_cons_self
    have atLeast := aged old List.mem_cons_self
    have rest : ∀ d ∈ age, domainQuery2 ≤ d.status :=
      fun d member => aged d (List.mem_cons_of_mem _ member)
    by_cases long : ((old :: age).length + 1 : Int) > dnsCacheNum
    · by_cases idle : old.status = domainQuery2
      · have none : old.pNewAddrs = none := by
          apply first
          · rw [idle]
            decide
          · rw [idle]
            decide
        simp only [putBack, if_pos long, if_pos idle]
        refine ⟨trivial, ?_, fun d member => settled d (List.mem_cons_of_mem _ member), rest⟩
        simp [Domains.others, DomainAddrs.owned, none]
      · simp only [putBack, if_pos long, if_neg idle]
        refine ⟨trivial, List.perm_iff_count.mpr fun a => ?_, fun d member => ?_, rest⟩
        · simp only [Domains.others, DomainAddrs.owned, Option.toList_none, List.nil_append,
            List.flatMap_append, List.flatMap_cons, List.cons_append, List.count_append]
          omega
        · rcases List.mem_append.mp member with member | member
          · exact settled d (List.mem_cons_of_mem _ (List.mem_append_left _ member))
          · rcases List.mem_cons.mp member with rfl | member
            · intro notQuery1 notNew
              apply first
              · exact fun same => absurd (same ▸ atLeast) (by decide)
              · intro same
                apply notQuery1
                show old.status - domainQuery2 = domainQuery1
                rw [same]
                rfl
            · exact settled d (List.mem_cons_of_mem _ (List.mem_append_right _ member))
    · simp only [putBack, if_neg long]
      exact ⟨trivial, List.Perm.refl _, settled, aged⟩

/-- What the listeners of the queries have taken of the list that is told. -/
def takenBy (queries : List Nat) (domain : DomainAddrs A) (pAddrs : Option A) : List A :=
  if domain.Merges then
    (domain.pNewAddrs.or pAddrs).toList.flatMap (List.replicate queries.sum)
  else []

section
variable [DecidableEq A] [DecidableEq P] {ds : Domains A} {taken : List A} {pAddrs : Option A}

def contentAfter (domain : DomainAddrs A) (pAddrs : Option A) (content : A → List P) :
    A → List P :=
  if domain.Merges then joinedContent domain.pNewAddrs pAddrs content else content

/-- The references to the lists of a merge after notice_user. -/
theorem notice_spec {news : Option A} (owned : Owned h content (news.toList ++ refs))
    (queries : List Nat) :
    let told := if queries = [] then none else news
    ∃ h', Returns (fun fuel => noticeUser fuel queries told (addrsRefInc told h)) h' ∧
      Owned h' content
        (news.toList.flatMap (List.replicate queries.sum) ++ (news.toList ++ refs)) ∧
      Dropped content h h' (news.toList ++ refs)
        (news.toList.flatMap (List.replicate queries.sum) ++ (news.toList ++ refs)) := by
  intro told
  have more : Owned (addrsRefInc told h) content (told.toList ++ (news.toList ++ refs)) := by
    cases here : told with
    | none => exact owned
    | some a =>
      apply owned.inc
      have same : news = some a := by
        by_cases empty : queries = []
        · simp [told, empty] at here
        · simpa [told, empty] using here
      simp [same]
  obtain ⟨h', run, owned', dropped⟩ := noticeUser_spec more queries
  have taken : told.toList.flatMap (List.replicate queries.sum) =
      news.toList.flatMap (List.replicate queries.sum) := by
    by_cases empty : queries = []
    · have none : ∀ l : List A, l.flatMap (List.replicate 0) = [] := by
        intro l
        simp [List.flatMap_eq_nil_iff]
      rw [empty, List.sum_nil, none, none]
    · simp [told, empty]
  rw [taken] at owned' dropped
  refine ⟨h', run, owned', Dropped.trans (.of_same ?_ ?_ ?_) dropped⟩
  · exact addrsRefInc_freed told
  · exact addrsRefInc_freedElem told
  · exact fun a member => List.mem_append_right _ member

omit [DecidableEq P] in
/-- No list has two owners after the merge, and none of them is empty. -/
theorem merged_owned (once : ds.owned.Nodup) (filled : ∀ a ∈ ds.owned, content a ≠ [])
    (saved : ∀ b, pAddrs = some b → b ∉ ds.owned ∧ content b ≠ []) :
    ((ds.domain.pNewAddrs.or pAddrs).toList ++ ds.others).Nodup ∧
      ∀ a ∈ (ds.domain.pNewAddrs.or pAddrs).toList ++ ds.others,
        joinedContent ds.domain.pNewAddrs pAddrs content a ≠ [] := by
  obtain ⟨⟨status, old, news⟩, age, off⟩ := ds
  have parts : Domains.owned ⟨⟨status, old, news⟩, age, off⟩ =
      old.toList ++ (news.toList ++ Domains.others ⟨⟨status, old, news⟩, age, off⟩) :=
    List.append_assoc ..
  rw [parts] at once filled saved
  have tail := (List.nodup_append.mp once).2.1
  cases news with
  | none =>
    rw [Option.none_or]
    constructor
    · apply List.nodup_append.mpr
      refine ⟨by cases pAddrs <;> simp, tail, fun x member y member' same => ?_⟩
      have arg := Option.mem_toList.mp member
      apply (saved x arg).1
      exact List.mem_append_right _ (same ▸ member')
    · intro a member
      rcases List.mem_append.mp member with member | member
      · exact (saved a (Option.mem_toList.mp member)).2
      · exact filled a (List.mem_append_right _ member)
  | some n =>
    rw [Option.some_or]
    constructor
    · exact tail
    · intro a member
      have whole := List.mem_append_right old.toList member
      cases pAddrs with
      | none => exact filled a whole
      | some b =>
        have notB : a ≠ b := fun same => (saved b rfl).1 (same ▸ whole)
        simp only [joinedContent]
        rw [Function.update_of_ne notB]
        by_cases isN : a = n
        · rw [isN, Function.update_self]
          exact List.append_ne_nil_of_right_ne_nil _ (saved b rfl).2
        · rw [Function.update_of_ne isN]
          exact filled a whole

/-- The callback that merges. -/
theorem domainCallback_merges (now : TimeVal) (queries : List Nat)
    (sound : Sound h content ds (pAddrs.toList ++ taken)) (merges : ds.domain.Merges)
    (saved : ∀ b, pAddrs = some b → b ∉ ds.owned ∧ content b ≠ []) :
    ∃ h' ds', Returns (fun fuel => domainCallback now queries pAddrs fuel ds h) (h', ds') ∧
      Sound h' (contentAfter ds.domain pAddrs content) ds'
        (takenBy queries ds.domain pAddrs ++ taken) ∧
      ds'.domain = ⟨domainQuery2, ds.domain.pNewAddrs.or pAddrs, none⟩ ∧
      Dropped (contentAfter ds.domain pAddrs content) h h'
        (ds.owned ++ (pAddrs.toList ++ taken))
        (ds'.owned ++ (takenBy queries ds.domain pAddrs ++ taken)) := by
  have distinct : ∀ a b, ds.domain.pNewAddrs = some a → pAddrs = some b → a ≠ b := by
    intro a b news arg same
    apply (saved b arg).1
    simp [Domains.owned, DomainAddrs.owned, news, same]
  have moved : (ds.owned ++ (pAddrs.toList ++ taken)).Perm
      (ds.domain.owned ++ (pAddrs.toList ++ (ds.others ++ taken))) := by
    apply List.perm_iff_count.mpr
    intro a
    simp only [Domains.owned, List.count_append]
    omega
  obtain ⟨news, isNews⟩ : ∃ news, news = ds.domain.pNewAddrs.or pAddrs := ⟨_, rfl⟩
  obtain ⟨h₁, merged, owned₁, freed₁, freedElem₁⟩ :
      ∃ h', mergeAddrs now { ds.domain with status := domainQuery2 } pAddrs h =
        some ⟨h', ⟨domainQuery2, news, none⟩, ds.domain.pAddrs⟩ ∧
        Owned h' (joinedContent ds.domain.pNewAddrs pAddrs content)
          (news.toList ++ (ds.domain.pAddrs.toList ++ (pAddrs.toList ++ (ds.others ++ taken)))) ∧
        h'.freed = h.freed ∧ h'.freedElem = h.freedElem := by
    rw [isNews]
    exact mergeAddrs_owned now { ds.domain with status := domainQuery2 }
      (sound.owned.perm moved) distinct fun b arg => (saved b arg).2
  obtain ⟨h₂, run₂, owned₂, dropped₂⟩ := notice_spec owned₁ queries
  let merging : Domains A := { ds with domain := ⟨domainQuery2, news, none⟩ }
  let put := if news = none then (merging, none) else putBack merging
  obtain ⟨domain, others, settled, aged⟩ : put.1.domain = merging.domain ∧
      ds.others.Perm (put.2.toList ++ put.1.others) ∧
      (∀ d ∈ put.1.age ++ put.1.off, d.Settled) ∧ ∀ d ∈ put.1.age, domainQuery2 ≤ d.status := by
    by_cases none : news = none
    · rw [show put = (merging, .none) from if_pos none]
      exact ⟨rfl, List.Perm.refl _, sound.settled.2, sound.aged⟩
    · rw [show put = putBack merging from if_neg none]
      exact putBack_spec merging sound.settled.2 sound.aged
  have held : put.1.owned = news.toList ++ put.1.others := by
    simp [Domains.owned, domain, merging, DomainAddrs.owned]
  have order : (news.toList.flatMap (List.replicate queries.sum) ++ (news.toList ++
      (ds.domain.pAddrs.toList ++ (pAddrs.toList ++ (ds.others ++ taken))))).Perm
      (put.2.toList ++ (ds.domain.pAddrs.toList ++ (pAddrs.toList ++ (put.1.owned ++
        (news.toList.flatMap (List.replicate queries.sum) ++ taken))))) := by
    apply List.perm_iff_count.mpr
    intro a
    have counts := others.count_eq a
    simp only [held, List.count_append] at counts ⊢
    omega
  obtain ⟨h₃, run₃, owned₃, dropped₃⟩ := (owned₂.perm order).dec_toList
  obtain ⟨h₄, run₄, owned₄, dropped₄⟩ := owned₃.dec_toList
  obtain ⟨h₅, run₅, owned₅, dropped₅⟩ := owned₄.dec_toList
  have takes : takenBy queries ds.domain pAddrs =
      news.toList.flatMap (List.replicate queries.sum) := by
    rw [isNews]
    exact if_pos merges
  have holds : contentAfter ds.domain pAddrs content =
      joinedContent ds.domain.pNewAddrs pAddrs content := if_pos merges
  rw [takes, holds]
  obtain ⟨once, filled⟩ := merged_owned sound.once sound.filled saved
  rw [← isNews] at once filled
  have sub : put.1.owned.Subperm (news.toList ++ ds.others) := by
    rw [held]
    apply (List.subperm_append_left _).mpr
    exact (List.sublist_append_right ..).subperm.trans others.symm.subperm
  have once' : put.1.owned.Nodup := by
    obtain ⟨l, perm, sublist⟩ := sub
    exact perm.nodup_iff.mp (once.sublist sublist)
  refine ⟨h₅, put.1, ?_, ?_, isNews ▸ domain, ?_⟩
  · have notFirst :
        ¬(ds.domain.status = domainQuerying ∨ ds.domain.status = domainNewQuerying) := by
      rcases merges with status | status <;> rw [status] <;> decide
    have chain := (((run₂.bind run₃).bind run₄).bind run₅).map fun h => (h, put.1)
    apply chain.imp
    intro fuel result
    have test : ds.domain.status = domainNewQuery1 ∨ ds.domain.status = domainQuery1 := merges
    rw [domainCallback, if_neg notFirst, if_pos test, merged]
    exact result
  · exact ⟨once', owned₅, fun a member => filled a (sub.subset member),
      ⟨fun _ _ => by rw [domain], settled⟩, aged⟩
  · have first : Dropped (joinedContent ds.domain.pNewAddrs pAddrs content) h h₁
        (ds.owned ++ (pAddrs.toList ++ taken))
        (news.toList ++ (ds.domain.pAddrs.toList ++ (pAddrs.toList ++ (ds.others ++ taken)))) := by
      apply Dropped.of_same freed₁ freedElem₁
      intro a member
      have stays : a ∈ ds.domain.pNewAddrs.toList → a ∈ news.toList := by
        intro here
        rw [isNews, Option.mem_toList.mp here, Option.some_or]
        exact List.mem_singleton_self a
      simp only [Domains.owned, DomainAddrs.owned, List.mem_append] at member ⊢
      tauto
    exact ((first.trans dropped₂).trans (dropped₃.perm order)).trans (dropped₄.trans dropped₅)

/-- The callback for the first of the two answers, and the one for a status that is none of
these. -/
theorem domainCallback_first (now : TimeVal) (queries : List Nat)
    (sound : Sound h content ds (pAddrs.toList ++ taken)) (notMerges : ¬ds.domain.Merges)
    (saved : ∀ b, pAddrs = some b → b ∉ ds.owned ∧ content b ≠ []) :
    ∃ h' ds', Returns (fun fuel => domainCallback now queries pAddrs fuel ds h) (h', ds') ∧
      Sound h' content ds' taken ∧
      Dropped content h h' (ds.owned ++ (pAddrs.toList ++ taken)) (ds'.owned ++ taken) := by
  have notSecond : ¬(ds.domain.status = domainNewQuery1 ∨ ds.domain.status = domainQuery1) :=
    notMerges
  have none : ds.domain.pNewAddrs = none := by
    apply sound.settled.1
    · exact fun same => notMerges (.inr same)
    · exact fun same => notMerges (.inl same)
  by_cases first : ds.domain.status = domainQuerying ∨ ds.domain.status = domainNewQuerying
  · let ds' := { ds with domain := { ds.domain with
      pNewAddrs := pAddrs
      status := ds.domain.status + 1 } }
    have held : (pAddrs.toList ++ ds.owned).Perm ds'.owned := by
      apply List.perm_iff_count.mpr
      intro a
      simp only [ds', Domains.owned, Domains.others, DomainAddrs.owned, none,
        Option.toList_none, List.count_append, List.count_nil]
      omega
    have more : Owned (addrsRefInc pAddrs h) content
        (pAddrs.toList ++ (ds.owned ++ (pAddrs.toList ++ taken))) := by
      cases pAddrs with
      | none => exact sound.owned
      | some b => exact sound.owned.inc (by simp)
    obtain ⟨h', run, owned', dropped⟩ := more.dec_toList
    have moved : (ds.owned ++ (pAddrs.toList ++ taken)).Perm (ds'.owned ++ taken) := by
      apply List.perm_iff_count.mpr
      intro a
      have counts := held.count_eq a
      simp only [List.count_append] at counts ⊢
      omega
    refine ⟨h', ds', ?_, ⟨?_, owned'.perm moved, fun a member => ?_, ⟨?_, sound.settled.2⟩,
      sound.aged⟩, ?_⟩
    · apply (run.map fun h => (h, ds')).imp
      intro fuel result
      rw [domainCallback, if_pos first]
      exact result
    · apply held.nodup_iff.mp
      apply List.nodup_append.mpr
      refine ⟨by cases pAddrs <;> simp, sound.once, fun x member y member' same => ?_⟩
      exact (saved x (Option.mem_toList.mp member)).1 (same ▸ member')
    · rcases List.mem_append.mp (held.mem_iff.mpr member) with member | member
      · exact (saved a (Option.mem_toList.mp member)).2
      · exact sound.filled a member
    · intro notQuery1 notNew
      rcases first with status | status
      · exact absurd (show ds.domain.status + 1 = domainQuery1 by rw [status]; rfl) notQuery1
      · exact absurd (show ds.domain.status + 1 = domainNewQuery1 by rw [status]; rfl) notNew
    · have start : Dropped content h (addrsRefInc pAddrs h)
          (ds.owned ++ (pAddrs.toList ++ taken))
          (pAddrs.toList ++ (ds.owned ++ (pAddrs.toList ++ taken))) := by
        apply Dropped.of_same
        · exact addrsRefInc_freed pAddrs
        · exact addrsRefInc_freedElem pAddrs
        · exact fun a member => List.mem_append_right _ member
      refine (start.trans dropped).trans (.of_same rfl rfl fun a member => ?_)
      exact moved.mem_iff.mp member
  · have moved : (ds.owned ++ (pAddrs.toList ++ taken)).Perm
        (pAddrs.toList ++ (ds.owned ++ taken)) := by
      apply List.perm_iff_count.mpr
      intro a
      simp only [List.count_append]
      omega
    obtain ⟨h', run, owned', dropped⟩ := (sound.owned.perm moved).dec_toList
    refine ⟨h', ds, ?_, ⟨sound.once, owned', sound.filled, sound.settled, sound.aged⟩,
      dropped.perm moved⟩
    apply (run.map fun h => (h, ds)).imp
    intro fuel result
    rw [domainCallback, if_neg first, if_neg notSecond]
    exact result

/-- What merge_addrs has done when it returns. -/
structure Merged (domain : DomainAddrs A) (pAddrs : Option A) (content : A → List P)
    (h : Heap A P) (merge : Merge A P) : Prop where
  left : merge.domain =
    { domain with pAddrs := domain.pNewAddrs.or pAddrs, pNewAddrs := none }
  returned : merge.pAddrsDel = domain.pAddrs
  untouched : ∀ c, domain.pAddrs = some c → Untouched h merge.heap c (content c)
  joined : ∀ a b, domain.pNewAddrs = some a → pAddrs = some b →
    Returns (fun fuel => traverse (getAddrsNext merge.heap a) fuel none)
      ((content a ++ content b).map .elem) ∧
    Returns (fun fuel => traverse (getAddrsPrev merge.heap a) fuel none)
      ((content a ++ content b).map .elem).reverse ∧
    merge.heap.n a = h.n a + h.n b ∧ WellFormed merge.heap a (content a ++ content b) ∧
    merge.heap.n b = 0 ∧ WellFormed merge.heap b [] ∧ merge.heap.refNum = h.refNum
  argument : ∀ b, domain.pNewAddrs = none → pAddrs = some b →
    WellFormed merge.heap b (content b) ∧ merge.heap.refNum b = h.refNum b + 1 ∧
      ∀ c, c ≠ b → merge.heap.refNum c = h.refNum c
  new : ∀ a, domain.pNewAddrs = some a → pAddrs = none →
    WellFormed merge.heap a (content a) ∧ merge.heap.refNum = h.refNum
  neither : domain.pNewAddrs = none → pAddrs = none → merge.heap.refNum = h.refNum

theorem mergeAddrs_merged_one (now : TimeVal) {status : Int} {old news pAddrs : Option A}
    (one : news = none ∨ pAddrs = none)
    (others : ∀ c, old = some c → news ≠ some c ∧ pAddrs ≠ some c)
    (formed : ∀ a ∈ DomainAddrs.owned ⟨status, old, news⟩ ++ pAddrs.toList,
      WellFormed h a (content a)) :
    ∃ merge, mergeAddrs now ⟨status, old, news⟩ pAddrs h = some merge ∧
      Merged ⟨status, old, news⟩ pAddrs content h merge := by
  obtain ⟨h', run, links, n, freed, freedElem, refNum, tv⟩ :=
    mergeAddrs_one (h := h) now ⟨status, old, news⟩ rfl one
  have kept : ∀ c ∈ DomainAddrs.owned ⟨status, old, news⟩ ++ pAddrs.toList,
      WellFormed h' c (content c) := fun c member =>
    (formed c member).congr (congrFun n c) fun x _ => congrFun links x
  refine ⟨_, run, rfl, rfl, fun c here => ?_, fun a b hasNew hasArg => ?_,
    fun b _ hasArg => ⟨?_, ?_, fun c other => ?_⟩, fun a hasNew noArg => ⟨?_, ?_⟩,
    fun _ noArg => ?_⟩
  · obtain ⟨notNew, notArg⟩ := others c here
    refine ⟨fun x _ => congrFun links x, fun p _ => congrFun freedElem p, congrFun n c,
      tv c ?_, ?_, congrFun freed c⟩
    · cases news with
      | none => exact notArg
      | some a => exact notNew
    · refine (congrFun refNum c).trans ?_
      cases pAddrs with
      | none => rfl
      | some b => exact Function.update_of_ne (fun same => notArg (congrArg some same.symm)) ..
  · rcases one with none | none
    · exact absurd (none.symm.trans hasNew) (Option.some_ne_none a).symm
    · exact absurd (none.symm.trans hasArg) (Option.some_ne_none b).symm
  · exact kept b (by simp [hasArg])
  · refine (congrFun refNum b).trans ?_
    rw [hasArg]
    exact Function.update_self ..
  · refine (congrFun refNum c).trans ?_
    rw [hasArg]
    exact Function.update_of_ne other ..
  · have news : news = some a := hasNew
    exact kept a (by simp [DomainAddrs.owned, news])
  · rw [refNum, noArg]
    rfl
  · rw [refNum, noArg]
    rfl

/-- merge_addrs joins two lists, and hands on one that is alone. -/
theorem mergeAddrs_merged (now : TimeVal) (domain : DomainAddrs A) (pAddrs : Option A)
    (distinct : (domain.owned ++ pAddrs.toList).Nodup)
    (formed : ∀ a ∈ domain.owned ++ pAddrs.toList, WellFormed h a (content a))
    (filled : ∀ a ∈ domain.pNewAddrs.toList ++ pAddrs.toList, content a ≠ []) :
    ∃ merge, mergeAddrs now domain pAddrs h = some merge ∧
      Merged domain pAddrs content h merge := by
  obtain ⟨status, old, news⟩ := domain
  have others : ∀ c, old = some c → news ≠ some c ∧ pAddrs ≠ some c := by
    intro c here
    subst here
    simp only [DomainAddrs.owned, Option.toList_some, List.cons_append,
      List.nodup_cons, List.mem_append, Option.mem_toList, not_or] at distinct
    exact ⟨distinct.1.1.2, distinct.1.2⟩
  cases news with
  | none => exact mergeAddrs_merged_one now (.inl rfl) others formed
  | some a =>
    cases pAddrs with
    | none => exact mergeAddrs_merged_one now (.inr rfl) others formed
    | some b =>
      have other : a ≠ b := by
        intro same
        subst same
        have twice := (List.nodup_append.mp distinct).2.2 a (by simp [DomainAddrs.owned]) a
        exact twice (by simp) rfl
      have first := formed a (by simp [DomainAddrs.owned])
      have second := formed b (by simp)
      obtain ⟨h', run, joined⟩ := mergeAddrs_both now ⟨status, old, some a⟩
        rfl first second other (filled b (by simp))
      refine ⟨_, run, rfl, rfl, fun c here => ?_, fun x y hasNew hasArg => ?_, fun y noNew => ?_,
        fun x _ noArg => ?_, fun noNew => ?_⟩
      · obtain ⟨notNew, notArg⟩ := others c here
        have oldList : old = some c := here
        apply joined.others c (content c) (formed c (by simp [DomainAddrs.owned, oldList]))
        · exact fun same => notNew (congrArg some same.symm)
        · exact fun same => notArg (congrArg some same.symm)
      · cases Option.some.inj hasNew
        cases Option.some.inj hasArg
        refine ⟨joined.whole.forward, joined.whole.backward, ?_, joined.whole, joined.empty.n,
          joined.empty, joined.refNum⟩
        rw [joined.whole.n, first.n, second.n, List.length_append]
        exact Int.natCast_add ..
      · exact absurd noNew (Option.some_ne_none a)
      · exact absurd noArg (Option.some_ne_none b)
      · exact absurd noNew (Option.some_ne_none a)

omit [DecidableEq P] in
/-- A list that a saved answer is alone with has no owner among the domains yet. -/
theorem Sound.fresh (sound : Sound h content ds (pAddrs.toList ++ taken))
    (one : ∀ b, pAddrs = some b → h.refNum b = 1) : ∀ b, pAddrs = some b → b ∉ ds.owned := by
  intro b arg member
  have counted := sound.owned.counted b (List.mem_append_left _ member)
  have owners : 0 < ds.owned.count b := List.count_pos_iff.mpr member
  rw [one b arg, arg, List.count_append, Option.toList_some, List.count_append,
    List.count_singleton_self] at counted
  omega

theorem mergeAddrs_tv {merge : Merge A P} (run : mergeAddrs now domain pAddrs h = some merge)
    (left : merge.domain.pAddrs = some a) : merge.heap.tv a = now := by
  obtain ⟨new, _, rfl⟩ := Option.map_eq_some_iff.mp run
  have same : new.2 = some a := left
  simp [same]

/-- What the name cache sees of a list in memory. -/
def valueOf (h : Heap A P) (content : A → List P) (pAddrs : Option A) : Option (Addrs P) :=
  pAddrs.map fun a => ⟨content a, h.tv a⟩

/-- On values, merge_addrs is the merge of the name cache. -/
theorem mergeAddrs_refines (now : TimeVal) (distinct : (domain.owned ++ pAddrs.toList).Nodup)
    (formed : ∀ a ∈ domain.owned ++ pAddrs.toList, WellFormed h a (content a))
    (filled : ∀ a ∈ domain.pNewAddrs.toList ++ pAddrs.toList, content a ≠ []) :
    let content' := joinedContent domain.pNewAddrs pAddrs content
    ∃ merge, mergeAddrs now domain pAddrs h = some merge ∧
      (∀ a, merge.domain.pAddrs = some a → WellFormed merge.heap a (content' a)) ∧
      valueOf merge.heap content' merge.domain.pAddrs =
        Dns.mergeAddrs now (valueOf h content domain.pNewAddrs) (valueOf h content pAddrs) := by
  intro content'
  obtain ⟨merge, run, merged⟩ := mergeAddrs_merged now domain pAddrs distinct formed filled
  have stamp : ∀ a, merge.domain.pAddrs = some a → merge.heap.tv a = now :=
    fun a left => mergeAddrs_tv run left
  rw [merged.left] at stamp
  refine ⟨merge, run, ?_⟩
  rw [merged.left]
  cases news : domain.pNewAddrs with
  | none =>
    rw [news, Option.none_or] at stamp
    cases arg : pAddrs with
    | none =>
      constructor
      · exact fun a left => absurd left.symm (Option.some_ne_none a)
      · rfl
    | some b =>
      have same : content' b = content b := by simp only [content', news, arg, joinedContent]
      constructor
      · intro a left
        cases Option.some.inj left
        rw [same]
        exact (merged.argument b news arg).1
      · simp [valueOf, Dns.mergeAddrs, same, stamp b arg]
  | some a =>
    rw [news, Option.some_or] at stamp
    cases arg : pAddrs with
    | none =>
      have same : content' a = content a := by simp only [content', news, arg, joinedContent]
      constructor
      · intro x left
        cases Option.some.inj left
        rw [same]
        exact (merged.new a news arg).1
      · simp [valueOf, Dns.mergeAddrs, same, stamp a rfl]
    | some b =>
      have other : a ≠ b := by
        intro same
        have twice := (List.nodup_append.mp distinct).2.2 a (by simp [DomainAddrs.owned, news]) b
        exact twice (by simp [arg]) same
      have same : content' a = content a ++ content b := by
        simp only [content', news, arg, joinedContent]
        rw [Function.update_of_ne other, Function.update_self]
      constructor
      · intro x left
        cases Option.some.inj left
        rw [same]
        exact (merged.joined a b news arg).2.2.2.1
      · simp [valueOf, Dns.mergeAddrs, same, stamp a rfl]

/-- merge_addrs joins the answers of the two lookups, and after the callback each list has
one owner, and one reference if no listener took another one. -/
theorem mergeAddrs_joins :
    (∀ (now : TimeVal) (domain : DomainAddrs A) (pAddrs : Option A) (content : A → List P)
      (h : Heap A P), (domain.owned ++ pAddrs.toList).Nodup →
      (∀ a ∈ domain.owned ++ pAddrs.toList, WellFormed h a (content a)) →
      (∀ a ∈ domain.pNewAddrs.toList ++ pAddrs.toList, content a ≠ []) →
      ∃ merge, mergeAddrs now domain pAddrs h = some merge ∧
        Merged domain pAddrs content h merge) ∧
    ∀ (now : TimeVal) (queries : List Nat) (pAddrs : Option A) (ds : Domains A)
      (taken : List A) (content : A → List P) (h : Heap A P),
      Sound h content ds (pAddrs.toList ++ taken) →
      (∀ b, pAddrs = some b → h.refNum b = 1 ∧ content b ≠ []) →
      ∃ h' ds' content' taken',
        Returns (fun fuel => domainCallback now queries pAddrs fuel ds h) (h', ds') ∧
        content' = contentAfter ds.domain pAddrs content ∧
        taken' = takenBy queries ds.domain pAddrs ++ taken ∧ Sound h' content' ds' taken' ∧
        (∀ a ∈ ds'.owned, h'.refNum a = 1 + taken'.count a) ∧
        (ds.domain.Merges →
          ds'.domain = ⟨domainQuery2, ds.domain.pNewAddrs.or pAddrs, none⟩) ∧
        Dropped content' h h' (ds.owned ++ (pAddrs.toList ++ taken)) (ds'.owned ++ taken') := by
  constructor
  · intro now domain pAddrs content h distinct formed filled
    exact mergeAddrs_merged now domain pAddrs distinct formed filled
  · intro now queries pAddrs ds taken content h sound saved
    have fresh := sound.fresh fun b arg => (saved b arg).1
    have single : ∀ {h' : Heap A P} {content' : A → List P} {ds' : Domains A} {taken' : List A},
        Sound h' content' ds' taken' → ∀ a ∈ ds'.owned, h'.refNum a = 1 + taken'.count a := by
      intro h' content' ds' taken' sound' a member
      have counted := sound'.owned.counted a (List.mem_append_left _ member)
      rw [List.count_append, List.count_eq_one_of_mem sound'.once member] at counted
      omega
    by_cases merges : ds.domain.Merges
    · obtain ⟨h', ds', run, sound', left, dropped⟩ := domainCallback_merges now queries sound
        merges fun b arg => ⟨fresh b arg, (saved b arg).2⟩
      exact ⟨h', ds', _, _, run, rfl, rfl, sound', single sound', fun _ => left, dropped⟩
    · obtain ⟨h', ds', run, sound', dropped⟩ := domainCallback_first now queries sound
        merges fun b arg => ⟨fresh b arg, (saved b arg).2⟩
      have same : content = contentAfter ds.domain pAddrs content := (if_neg merges).symm
      have none : takenBy queries ds.domain pAddrs ++ taken = taken := by
        rw [takenBy, if_neg merges, List.nil_append]
      exact ⟨h', ds', _, _, run, same, none.symm, sound', single sound',
        fun isMerge => absurd isMerge merges, dropped⟩

end

/-- The lists 0, 1, … with one element each. -/
def shortLists : Heap Nat Nat where
  links
    | .head a => ⟨none, some (.elem a)⟩
    | .elem a => ⟨some (.head a), some (.tail a)⟩
    | .tail a => ⟨some (.elem a), none⟩
  n _ := 1
  tv _ := ⟨0, 0⟩
  refNum _ := 1
  freed _ := false
  freedElem _ := false

theorem shortLists_formed (a : Nat) : WellFormed shortLists a [a] :=
  ⟨⟨rfl, rfl, rfl, trivial⟩, rfl⟩

theorem shortLists_sound : Sound shortLists (fun a => [a]) ⟨⟨2, some 0, some 1⟩, [], []⟩ [2] where
  once := by decide
  owned :=
    { counted := by decide
      stored := fun a _ => ⟨shortLists_formed a, rfl, fun _ _ => rfl⟩ }
  filled a _ := List.cons_ne_nil a []
  settled := ⟨fun query1 => absurd rfl query1, fun _ member => absurd member List.not_mem_nil⟩
  aged _ member := absurd member List.not_mem_nil

theorem mergeAddrs_joins_shortLists :
    (∃ merge, mergeAddrs ⟨7, 0⟩ ⟨2, some 0, some 1⟩ (some 2) shortLists = some merge ∧
      Merged ⟨2, some 0, some 1⟩ (some 2) (fun a => [a]) shortLists merge) ∧
    ∃ h' ds' content' taken',
      Returns (fun fuel => domainCallback ⟨7, 0⟩ [0] (some 2) fuel ⟨⟨2, some 0, some 1⟩, [], []⟩
        shortLists) (h', ds') ∧
      content' = contentAfter ⟨2, some 0, some 1⟩ (some 2) (fun a => [a]) ∧
      taken' = takenBy [0] ⟨2, some 0, some 1⟩ (some 2) ++ [] ∧ Sound h' content' ds' taken' ∧
      (∀ a ∈ ds'.owned, h'.refNum a = 1 + taken'.count a) ∧
      (DomainAddrs.Merges (⟨2, some 0, some 1⟩ : DomainAddrs Nat) →
        ds'.domain = ⟨domainQuery2, some 1, none⟩) ∧
      Dropped content' shortLists h' [0, 1, 2] (ds'.owned ++ taken') := by
  constructor
  · apply mergeAddrs_joins.1
    · decide
    · exact fun a _ => shortLists_formed a
    · exact fun a _ => List.cons_ne_nil a []
  · exact mergeAddrs_joins.2 ⟨7, 0⟩ [0] (some 2) ⟨⟨2, some 0, some 1⟩, [], []⟩ []
      (fun a => [a]) shortLists shortLists_sound fun b _ => ⟨rfl, List.cons_ne_nil b []⟩

end MoonInWater.Dns.AddrList
