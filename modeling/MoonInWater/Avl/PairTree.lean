import MoonInWater.Avl.OrderedMap

/-! The tree of address pairs, whose nodes avl_add and avl_del allocate and free. -/
namespace MoonInWater.Avl
open AvlTree Fuel
variable {P V : Type}

/-- addr_pair_s; `addr` is NULL until a caller stores something there. -/
structure AddrPair (V : Type) where
  virtualAddr : Nat
  addr : Option V
deriving DecidableEq

/-- The nodes, the pairs behind them, and which of them are allocated. -/
structure PairTree (P V : Type) where
  mem : Mem P
  pair : P → AddrPair V
  live : P → Bool

def addrPairCmpFunc (pair : AddrPair V) (addr : Nat) : Int :=
  if addr < pair.virtualAddr then 1 else if pair.virtualAddr < addr then -1 else 0

def PairTree.cmp (s : PairTree P V) (addr : Nat) (p : P) : Int := addrPairCmpFunc (s.pair p) addr

def PairTree.key (s : PairTree P V) (p : P) : Nat := (s.pair p).virtualAddr

def avlSearch (fuel : Nat) (addr : Nat) (s : PairTree P V) : Option (Option P) :=
  avlSearch2 (s.cmp addr) fuel none s.mem.root s.mem

variable [DecidableEq P]

def PairTree.calloc (s : PairTree P V) (p : P) : PairTree P V where
  mem := s.mem.set p detached
  pair := Function.update s.pair p ⟨0, none⟩
  live := Function.update s.live p true

def PairTree.free (s : PairTree P V) (p : P) : PairTree P V :=
  { s with live := Function.update s.live p false }

def PairTree.setPair (s : PairTree P V) (p : P) (pair : AddrPair V) : PairTree P V :=
  { s with pair := Function.update s.pair p pair }

/-- avl_add; `newNode` is what calloc returns. -/
def avlAdd (fuel : Nat) (newNode : Option P) (addr : Nat) (s : PairTree P V) :
    Option (PairTree P V × Option P) :=
  match newNode with
  | none => some (s, none)
  | some pair => do
    let s := s.calloc pair
    let s := s.setPair pair { s.pair pair with virtualAddr := addr }
    let (mem, data) ← avlAdd2 fuel pair (s.cmp addr) s.mem
    let s := { s with mem := mem }
    some (if data ≠ pair then s.free pair else s, some pair)

/-- avl_del, with a copy of the pair that is gone. -/
def avlDel (fuel : Nat) (addr : Nat) (s : PairTree P V) :
    Option (PairTree P V × AddrPair V) := do
  match ← avlSearch fuel addr s with
  | none => some (s, ⟨0, none⟩)
  | some pair =>
    if (s.pair pair).virtualAddr = addr then do
      let (mem, _) ← avlDel2 fuel pair s.mem
      some (({ s with mem := mem } : PairTree P V).free pair, s.pair pair)
    else some (s, ⟨0, none⟩)

/-- The calls, and the stores of their callers to pairs that they were given. -/
inductive PairTree.Call : PairTree P V → PairTree P V → Prop
  | add (newNode : Option P) (addr : Nat) : (∀ p, newNode = some p → s.live p = false) →
      Returns (fun fuel => avlAdd fuel newNode addr s) (s', ret) → Call s s'
  | del (addr : Nat) : Returns (fun fuel => avlDel fuel addr s) (s', ret) → Call s s'
  | store (p : P) (addr : Option V) :
      Call s (s.setPair p { s.pair p with addr := addr })

/-- Some tree is well formed, and all its nodes are allocated. -/
structure PairTree.Sound (s : PairTree P V) : Prop where
  wellFormed : ∃ t, WellFormed s.key s.mem t
  live : ∀ p, InTree s.mem p → s.live p = true

/-- What a caller of avl_add relies on when it gets the pair of `q`. -/
structure LiveNode (s : PairTree P V) (addr : Nat) (s' : PairTree P V) (q : P) : Prop where
  inTree : InTree s'.mem q
  virtualAddr : (s'.pair q).virtualAddr = addr
  kept : ∀ p, InTree s.mem p → (s.pair p).virtualAddr = addr →
    (s'.pair q).addr = (s.pair p).addr
  notFreed : s'.live q = true
  treeLive : ∀ p, InTree s.mem p ∨ InTree s'.mem p → s'.live p = true

section calls
variable {s s' : PairTree P V} {addr : Nat} {p q : P}

omit [DecidableEq P] in
theorem PairTree.compares (s : PairTree P V) (addr : Nat) : Compares (s.cmp addr) s.key addr := by
  intro p
  unfold PairTree.cmp PairTree.key addrPairCmpFunc
  split_ifs <;> omega

/-- The state in which avl_add calls avl_add2. -/
def PairTree.entering (s : PairTree P V) (p : P) (addr : Nat) : PairTree P V :=
  (s.calloc p).setPair p { (s.calloc p).pair p with virtualAddr := addr }

theorem entering_node : (s.entering p addr).mem.node p = detached := by
  simp [PairTree.entering, PairTree.calloc, PairTree.setPair, Mem.set]

theorem entering_key : (s.entering p addr).key p = addr := by
  simp [PairTree.entering, PairTree.setPair, PairTree.key]

theorem entering_pair (apart : q ≠ p) : (s.entering p addr).pair q = s.pair q := by
  simp [PairTree.entering, PairTree.calloc, PairTree.setPair, apart]

theorem entering_live (apart : q ≠ p) : (s.entering p addr).live q = s.live q := by
  simp [PairTree.entering, PairTree.calloc, PairTree.setPair, apart]

variable (s p addr) in
theorem entering_alive : (s.entering p addr).live p = true := by
  simp [PairTree.entering, PairTree.calloc, PairTree.setPair]

theorem avlAdd_run
    (result : avlAdd2 fuel p ((s.entering p addr).cmp addr) (s.entering p addr).mem =
      some (mem, q)) :
    avlAdd fuel (some p) addr s = some (if q ≠ p
      then ({ s.entering p addr with mem := mem } : PairTree P V).free p
      else { s.entering p addr with mem := mem }, some p) := by
  change (avlAdd2 fuel p ((s.entering p addr).cmp addr) (s.entering p addr).mem).bind _ = _
  rw [result]
  rfl

omit [DecidableEq P] in
theorem PairTree.Sound.fresh (sound : s.Sound) (free : s.live p = false) : ¬ InTree s.mem p := by
  intro member
  have live := sound.live p member
  rw [free] at live
  contradiction

/-- The new node lies beside the tree. -/
theorem WellFormed.entering (wellFormed : WellFormed s.key s.mem t) (fresh : ¬ InTree s.mem p) :
    WellFormed (s.entering p addr).key (s.entering p addr).mem t := by
  refine wellFormed.outside fresh fun q apart => ?_
  unfold PairTree.key
  rw [entering_pair apart]

/-- avl_add links its node when no node has the address, and frees it when one has. -/
theorem avlAdd_spec (sound : s.Sound) (free : s.live p = false) (addr : Nat) :
    (∃ mem t l r, Returns (fun fuel => avlAdd fuel (some p) addr s)
        ({ s.entering p addr with mem := mem }, some p) ∧
      WellFormed (s.entering p addr).key mem t ∧ t.toList = l ++ p :: r ∧
      (∀ q, InTree s.mem q ↔ q ∈ l ++ r) ∧ ∀ q, InTree s.mem q → s.key q ≠ addr) ∨
    ∃ q, InTree s.mem q ∧ s.key q = addr ∧
      Returns (fun fuel => avlAdd fuel (some p) addr s) ((s.entering p addr).free p, some p) := by
  have fresh := sound.fresh free
  obtain ⟨t, wellFormed⟩ := sound.wellFormed
  have beside : WellFormed (s.entering p addr).key (s.entering p addr).mem t :=
    wellFormed.entering fresh
  have outside : ¬ InTree (s.entering p addr).mem p := by
    rw [beside.inTree_iff, ← wellFormed.inTree_iff]
    exact fresh
  have apart : ∀ q, InTree s.mem q → q ≠ p := by
    rintro q member rfl
    exact fresh member
  have sameKey : ∀ q, InTree s.mem q → (s.entering p addr).key q = s.key q := by
    intro q member
    unfold PairTree.key
    rw [entering_pair (apart q member)]
  have compares : Compares ((s.entering p addr).cmp addr) (s.entering p addr).key
      ((s.entering p addr).key p) := by
    rw [entering_key]
    exact (s.entering p addr).compares addr
  rcases beside.add entering_node outside compares with
    ⟨mem, t', l, r, run, wellFormed', old, new⟩ | ⟨q, member, same, run⟩
  · refine .inl ⟨mem, t', l, r, ?_, wellFormed', new, ?_, ?_⟩
    · refine run.imp fun fuel result => ?_
      rw [avlAdd_run result, if_neg (not_not.mpr rfl)]
    · intro q
      rw [wellFormed.inTree_iff, old]
    · intro q member same
      have ordered := wellFormed'.ordered
      rw [new, List.pairwise_append, List.pairwise_cons] at ordered
      have place := wellFormed.inTree_iff.mp member
      have equal : (s.entering p addr).key q = (s.entering p addr).key p := by
        rw [sameKey q member, entering_key, same]
      rw [old] at place
      rcases List.mem_append.mp place with before | after
      · exact absurd equal (Nat.ne_of_lt (ordered.2.2 q before p (List.mem_cons_self ..)))
      · exact absurd equal.symm (Nat.ne_of_lt (ordered.2.1.1 q after))
  · have inTree := wellFormed.inTree_iff.mpr member
    rw [entering_key] at same
    rw [sameKey q inTree] at same
    refine .inr ⟨q, inTree, same, run.imp fun fuel result => ?_⟩
    rw [avlAdd_run result, if_pos (apart q inTree)]

omit [DecidableEq P] in
/-- avl_search finds the node with the greatest address that is not above. -/
theorem avlSearch_spec (wellFormed : WellFormed s.key s.mem t) (addr : Nat) :
    ∃ found, Returns (fun fuel => avlSearch fuel addr s) found ∧
      ∀ p, found = some p → p ∈ t.toList := by
  classical
  obtain ⟨found, run, _, place⟩ := wellFormed.search (s.compares addr)
  exact ⟨found, run, fun p here => (place p here).1⟩

/-- avl_del takes out the node that it frees, and no pair changes. -/
theorem avlDel_spec (sound : s.Sound) (addr : Nat) :
    ∃ s' ret, Returns (fun fuel => avlDel fuel addr s) (s', ret) ∧ s'.Sound ∧
      s'.pair = s.pair ∧ ∀ p, InTree s'.mem p → InTree s.mem p := by
  obtain ⟨t, wellFormed⟩ := sound.wellFormed
  obtain ⟨found, search, place⟩ := avlSearch_spec wellFormed addr
  cases found with
  | none =>
    refine ⟨s, ⟨0, none⟩, search.imp fun fuel result => ?_, sound, rfl, fun p member => member⟩
    simp only [avlDel, result, Option.bind_eq_bind, Option.bind_some]
  | some p =>
    by_cases equal : (s.pair p).virtualAddr = addr
    · obtain ⟨m, t', l, r, run, wellFormed', old, new, _⟩ := wellFormed.del (place p rfl)
      have members : ∀ q, InTree m q → InTree s.mem q := by
        intro q member
        rw [wellFormed'.inTree_iff, new] at member
        rw [wellFormed.inTree_iff, old]
        exact List.mem_append.mpr ((List.mem_append.mp member).imp_right (List.mem_cons_of_mem p))
      refine ⟨({ s with mem := m } : PairTree P V).free p, s.pair p,
        search.imp₂ run fun fuel found gone => ?_, ⟨⟨t', wellFormed'⟩, fun q member => ?_⟩, rfl,
        members⟩
      · simp only [avlDel, found, equal, if_true, gone, Option.bind_eq_bind, Option.bind_some]
      · have inNew := wellFormed'.inTree_iff.mp member
        have nodup := wellFormed.represents.nodup
        rw [old, List.nodup_middle, List.nodup_cons] at nodup
        rw [new] at inNew
        have apart : q ≠ p := fun same => nodup.1 (same ▸ inNew)
        change Function.update s.live p false q = true
        rw [Function.update_of_ne apart]
        exact sound.live q (members q member)
    · refine ⟨s, ⟨0, none⟩, search.imp fun fuel result => ?_, sound, rfl, fun p member => member⟩
      simp only [avlDel, result, equal, if_false, Option.bind_eq_bind, Option.bind_some]

/-- avl_add keeps the tree sound, whether it links its node or not. -/
theorem avlAdd_keeps (sound : s.Sound) (newNode : Option P)
    (free : ∀ p, newNode = some p → s.live p = false)
    (run : Returns (fun fuel => avlAdd fuel newNode addr s) (s', ret)) : s'.Sound := by
  cases newNode with
  | none =>
    cases run.unique (.pure _)
    exact sound
  | some p =>
    have fresh := sound.fresh (free p rfl)
    rcases avlAdd_spec sound (free p rfl) addr with
      ⟨mem, t, l, r, run', wellFormed, sequence, members, _⟩ | ⟨q, _, _, run'⟩
    · cases run.unique run'
      refine ⟨⟨t, wellFormed⟩, fun q member => ?_⟩
      change (s.entering p addr).live q = true
      by_cases here : q = p
      · rw [here, entering_alive s addr p]
      · have place := wellFormed.inTree_iff.mp member
        rw [sequence] at place
        rw [entering_live here]
        refine sound.live q ((members q).mpr ?_)
        simpa [here] using place
    · cases run.unique run'
      obtain ⟨t, wellFormed⟩ := sound.wellFormed
      have beside : WellFormed (s.entering p addr).key _ t := wellFormed.entering fresh
      refine ⟨⟨t, beside⟩, fun q member => ?_⟩
      have inTree : InTree s.mem q := wellFormed.inTree_iff.mpr (beside.inTree_iff.mp member)
      have apart : q ≠ p := fun same => fresh (same ▸ inTree)
      change Function.update (s.entering p addr).live p false q = true
      rw [Function.update_of_ne apart, entering_live apart]
      exact sound.live q inTree

/-- Each call keeps the tree sound. -/
theorem call_sound (call : PairTree.Call s s') (sound : s.Sound) : s'.Sound := by
  cases call with
  | add newNode addr free run => exact avlAdd_keeps sound newNode free run
  | del addr run =>
    obtain ⟨s'', ret, run', sound', _⟩ := avlDel_spec sound addr
    cases run.unique run'
    exact sound'
  | store p addr =>
    obtain ⟨t, wellFormed⟩ := sound.wellFormed
    have sameKey : (s.setPair p { s.pair p with addr := addr }).key = s.key := by
      funext q
      unfold PairTree.key PairTree.setPair
      by_cases here : q = p
      · simp [here]
      · simp [here]
    refine ⟨⟨t, ?_⟩, sound.live⟩
    rw [sameKey]
    exact wellFormed

theorem reachable_pairTree (empty : s.mem.root = none)
    (run : Relation.ReflTransGen PairTree.Call s s') : s'.Sound := by
  induction run with
  | refl =>
    refine ⟨⟨.nil, empty, trivial, trivial, .nil⟩, fun p member => ?_⟩
    have wellFormed : WellFormed s.key s.mem .nil := ⟨empty, trivial, trivial, .nil⟩
    cases wellFormed.inTree_iff.mp member
  | tail _ call ih => exact call_sound call ih

/-- Whatever calls made the tree, avl_add returns a live node of it exactly when the
address was in no node before. -/
theorem avlAdd_liveNode_iff (empty : s.mem.root = none)
    (run : Relation.ReflTransGen PairTree.Call s s') (free : s'.live p = false) (addr : Nat) :
    ∃ s'' q, Returns (fun fuel => avlAdd fuel (some p) addr s') (s'', some q) ∧
      (LiveNode s' addr s'' q ↔ ∀ x, InTree s'.mem x → (s'.pair x).virtualAddr ≠ addr) := by
  have sound := reachable_pairTree empty run
  have fresh := sound.fresh free
  rcases avlAdd_spec sound free addr with
    ⟨mem, t, l, r, returned, wellFormed, sequence, members, absent⟩ | ⟨x, inTree, same, returned⟩
  · refine ⟨_, p, returned, ⟨fun _ => absent, fun _ => ?_⟩⟩
    have sound' := avlAdd_keeps sound (some p) (by rintro _ ⟨⟩; exact free) returned
    have member : InTree mem p := by
      rw [wellFormed.inTree_iff, sequence]
      simp
    constructor
    · exact member
    · exact entering_key
    · exact fun x inTree same => absurd same (absent x inTree)
    · exact entering_alive s' addr p
    · rintro x (before | after)
      · refine sound'.live x (wellFormed.inTree_iff.mpr ?_)
        rw [sequence]
        have place := (members x).mp before
        simp only [List.mem_append, List.mem_cons] at place ⊢
        tauto
      · exact sound'.live x after
  · refine ⟨_, p, returned, ⟨fun live => ?_, fun absent => absurd same (absent x inTree)⟩⟩
    have notFreed := live.notFreed
    simp [PairTree.free] at notFreed

end calls

section duplicate

/-- No node, and no memory allocated. -/
def noPairs : PairTree Nat Nat := ⟨⟨fun _ => detached, none⟩, fun _ => ⟨0, none⟩, fun _ => false⟩

/-- The address 5 in the node 1, with the value 7. -/
def onePair : PairTree Nat Nat :=
  let s := { noPairs.entering 1 5 with mem := (noPairs.entering 1 5).mem.setSlot .root (some 1) }
  let s := { s with mem := s.mem.setUp 1 none }
  s.setPair 1 { s.pair 1 with addr := some 7 }

theorem onePair_reached : Relation.ReflTransGen PairTree.Call noPairs onePair := by
  have added : Returns (fun fuel => avlAdd fuel (some 1) 5 noPairs) _ :=
    .of_add 1 fun k => rfl
  refine .tail (.tail .refl (.add (some 1) 5 ?_ added)) (.store 1 (some 7))
  intro p _
  rfl

/-- A second node for another address. -/
theorem avlAdd_liveNode_other : ∃ s q,
    Returns (fun fuel => avlAdd fuel (some 2) 9 onePair) (s, some q) ∧
      (LiveNode onePair 9 s q ↔ ∀ x, InTree onePair.mem x → (onePair.pair x).virtualAddr ≠ 9) :=
  avlAdd_liveNode_iff rfl onePair_reached rfl 9

/-- The second caller with one address gets the pair that was freed, without the value. -/
theorem avlAdd_freed : Relation.ReflTransGen PairTree.Call noPairs onePair ∧
    onePair.live 2 = false ∧ ∃ s q,
      Returns (fun fuel => avlAdd fuel (some 2) 5 onePair) (s, some q) ∧
        ¬ LiveNode onePair 5 s q := by
  refine ⟨onePair_reached, rfl, _, 2, .of_add 1 fun k => rfl, fun live => ?_⟩
  have notFreed := live.notFreed
  contradiction

end duplicate
end MoonInWater.Avl
