import MoonInWater.Lib.Follows
import MoonInWater.Sync.Shadow

/-! Calls of shadow_runtime for the addresses of one block, by threads that share a private tree:
each searches the tree in a section of avl_mutex, and adds its copy in another one. -/
namespace MoonInWater.Sync.Shadow
open Pairs Avl Fuel PointTable Machine
variable {P : Type}

/-- Where a call is: before its search, before it adds its copy, or at its end. -/
inductive Stage where
  | searching
  | adding (pBlock offset : Nat)
  | returned (p : Nat)
deriving DecidableEq

/-- A call; `late` says that a call which writes had returned before it began. -/
structure Call where
  opt : Opt
  pData : Nat
  late : Bool
  stage : Stage
deriving DecidableEq

structure Calls (P : Type) where
  tp : ThreadPrivate P
  calls : List Call

/-- A call begins, or one passes its next section; calloc and malloc return `node` and
`copyBlock`. -/
inductive Turn (P : Type) where
  | call (opt : Opt) (pData : Nat)
  | pass (i : Nat) (node : P) (copyBlock : Nat)

/-- Where a call goes on from its search. -/
def Found.stage : Found → Stage
  | .ret p => .returned p
  | .copy pBlock offset => .adding pBlock offset

def Call.wrote (call : Call) : Bool :=
  match call.opt, call.stage with
  | .w, .returned _ => true
  | _, _ => false

section model
variable [DecidableEq P]

def Call.pass (fuel : Nat) (node : P) (copyBlock : Nat) (call : Call) (t : ThreadPrivate P) :
    Option (ThreadPrivate P × Stage) :=
  match call.stage with
  | .searching =>
    if call.pData = 0 then some (t, .returned call.pData)
    else
      (shadowLookup fuel call.opt call.pData t).map fun found => (t, found.stage)
  | .adding pBlock offset =>
    (shadowAdd fuel (some node) (some copyBlock) call.pData pBlock offset t).map fun added =>
      (added.1, .returned added.2)
  | .returned _ => none

/-- A step of the calls, whose searches end by themselves. -/
noncomputable def turn (op : Turn P) (s : Calls P) : Option (Calls P × Unit) :=
  match op with
  | .call opt pData =>
    some (⟨s.tp, s.calls ++ [⟨opt, pData, s.calls.any Call.wrote, .searching⟩]⟩, ())
  | .pass i node copyBlock =>
    (s.calls[i]?).bind fun call =>
      (limit fun fuel => call.pass fuel node copyBlock s.tp).map fun passed =>
        (⟨passed.1, s.calls.set i { call with stage := passed.2 }⟩, ())

end model

/-- The tree stores a block for an address. -/
def Stores (t : ThreadPrivate P) (addr pBlock : Nat) : Prop :=
  ∃ q, InTree t.avl.mem q ∧ t.avl.pair q = ⟨addr, some pBlock⟩

/-- A block that malloc returns is none of the version's and none of the tree's. -/
structure NewBlock (t : ThreadPrivate P) (node : P) (pBlock : Nat) : Prop where
  node : t.avl.live node = false
  version : ∀ x ∈ t.version.orderAddr, x.addr ≠ pBlock
  tree : ∀ addr, ¬ Stores t addr pBlock

section block
variable (x : Pairs.AddrPair Nat)

/-- A private copy of the block of `x`, with its data behind it. -/
structure CopyOf (t : ThreadPrivate P) (pBlock : Nat) : Prop where
  version : ∀ y ∈ t.version.orderAddr, y.addr ≠ pBlock
  dataLen : (t.block pBlock).dataLen = (t.block x.addr).dataLen
  data : (t.block pBlock).data = pBlock + sizeofMemBlock

/-- Calls are for addresses of the block, and those that pass have not returned. -/
def possible : Turn P → Calls P → Prop
  | .call _ pData, s => Covers x.id (s.tp.block x.addr).dataLen pData
  | .pass i node copyBlock, s =>
    (∃ call, s.calls[i]? = some call ∧ ∀ p, call.stage ≠ .returned p) ∧
      NewBlock s.tp node copyBlock

/-- A copy is added while the tree has no node for the block. -/
def addsFirst : Turn P → Calls P → Prop
  | .call _ _, _ => True
  | .pass i _ _, s => ∀ call pBlock offset, s.calls[i]? = some call →
      call.stage = .adding pBlock offset → ∀ q, InTree s.tp.avl.mem q → s.tp.avl.key q ≠ x.id

/-- All calls that write, and all that began once one of them had returned, return pointers into
one private copy, which is the one that the tree stores for the block. -/
def OneCopy (s : Calls P) : Prop :=
  ∃ copy, ∀ call ∈ s.calls, ∀ p, call.stage = .returned p → call.opt = .w ∨ call.late = true →
    Stores s.tp x.id copy ∧ CopyOf x s.tp copy ∧
      p = copy + sizeofMemBlock + (call.pData - x.id)

/-- A tree whose blocks lie beside the block of `x`, but for a private copy of it. -/
structure Beside (t : ThreadPrivate P) : Prop where
  placed : Placed t.version t.block
  member : x ∈ t.version.orderAddr
  sound : t.avl.Sound
  entries : ∀ q, InTree t.avl.mem q → ∃ pBlock, (t.avl.pair q).addr = some pBlock ∧
    (∀ y ∈ t.version.orderAddr, y.addr ≠ pBlock) ∧
      (t.avl.key q = x.id ∧ CopyOf x t pBlock ∨
        t.avl.key q ≠ x.id ∧ Fits (t.avl.key q) (t.block pBlock).dataLen ∧
          ((t.avl.key q : Int) + (t.block pBlock).dataLen ≤ x.id ∨
            (x.id : Int) + (t.block x.addr).dataLen ≤ t.avl.key q))

end block

section entries
variable {x : Pairs.AddrPair Nat} {t t' : ThreadPrivate P} {copy copy' pData : Nat} {q : P}

theorem Beside.copyOf (beside : Beside x t) (stores : Stores t x.id copy) : CopyOf x t copy := by
  obtain ⟨q, inTree, pair⟩ := stores
  obtain ⟨pBlock, stored, _, own | ⟨other, _⟩⟩ := beside.entries q inTree
  · rw [pair] at stored
    cases stored
    exact own.2
  · exact absurd (by rw [PairTree.key, pair]) other

theorem Beside.stored (beside : Beside x t) (inTree : InTree t.avl.mem q)
    (same : t.avl.key q = x.id) : ∃ copy, t.avl.pair q = ⟨x.id, some copy⟩ := by
  obtain ⟨pBlock, stored, _⟩ := beside.entries q inTree
  exact ⟨pBlock, by rw [← same, ← stored]; rfl⟩

theorem Beside.unique (beside : Beside x t) (first : Stores t x.id copy)
    (second : Stores t x.id copy') : copy = copy' := by
  obtain ⟨p, inTree, pair⟩ := first
  obtain ⟨q, inTree', pair'⟩ := second
  have same : p = q := key_inj beside.sound inTree inTree' (by simp [PairTree.key, pair, pair'])
  rw [same, pair'] at pair
  cases pair
  rfl

theorem Beside.fits (beside : Beside x t) : Fits x.id (t.block x.addr).dataLen :=
  (beside.placed.fits x beside.member).2

variable [DecidableEq P]

/-- A search for an address of the block comes to the copy that is stored for it. -/
theorem Beside.lookup_stored (beside : Beside x t) (stores : Stores t x.id copy)
    (inside : Covers x.id (t.block x.addr).dataLen pData) (opt : Opt) :
    Returns (fun fuel => shadowLookup fuel opt pData t)
      (.ret (copy + sizeofMemBlock + (pData - x.id))) := by
  have own := beside.copyOf stores
  obtain ⟨q, inTree, pair⟩ := stores
  have key : t.avl.key q = x.id := by rw [PairTree.key, pair]
  have floors : Floors t.avl pData q := by
    refine ⟨inTree, key ▸ inside.1, fun p member under => ?_⟩
    rw [key]
    obtain ⟨pBlock, _, _, own' | ⟨_, fits, before | behind⟩⟩ := beside.entries p member
    · exact Nat.le_of_eq own'.1
    · have low := fits.1
      omega
    · have before := inside.2
      omega
  have place : offsetIn (t.avl.key q) (t.block copy).dataLen pData = some (pData - x.id) := by
    rw [key, own.dataLen]
    exact offsetIn_inside beside.fits inside
  have found := shadowLookup_hit beside.sound floors (by rw [pair]) place opt
  rwa [own.data] at found

/-- It goes on to the version when none is stored. -/
theorem Beside.lookup_absent (beside : Beside x t)
    (absent : ∀ q, InTree t.avl.mem q → t.avl.key q ≠ x.id)
    (inside : Covers x.id (t.block x.addr).dataLen pData) (opt : Opt) :
    Returns (fun fuel => shadowLookup fuel opt pData t) (foundInside opt t x pData) := by
  refine shadowLookup_miss beside.sound (fun q floors => ?_)
    (versionLookup_inside beside.placed beside.member inside opt)
  obtain ⟨pBlock, stored, _, own | ⟨_, fits, before | behind⟩⟩ := beside.entries q floors.inTree
  · exact absurd own.1 (absent q floors.inTree)
  · have under := inside.1
    exact ⟨pBlock, stored, offsetIn_behind fits (by omega)⟩
  · have low := floors.under
    have before := inside.2
    omega

end entries

section steps
variable [DecidableEq P] {x : Pairs.AddrPair Nat} {s s' : Calls P} {t : ThreadPrivate P}

/-- What holds of a call at each stage. -/
structure CallOk (x : Pairs.AddrPair Nat) (t : ThreadPrivate P) (call : Call) : Prop where
  inside : Covers x.id (t.block x.addr).dataLen call.pData
  adding : ∀ pBlock offset, call.stage = .adding pBlock offset →
    call.opt = .w ∧ pBlock = x.addr ∧ offset = call.pData - x.id
  returned : ∀ p, call.stage = .returned p → call.opt = .w ∨ call.late = true →
    ∃ copy, Stores t x.id copy ∧ p = copy + sizeofMemBlock + (call.pData - x.id)
  late : call.late = true → ∃ copy, Stores t x.id copy

structure CallsOk (x : Pairs.AddrPair Nat) (s : Calls P) : Prop where
  beside : Beside x s.tp
  calls : ∀ call ∈ s.calls, CallOk x s.tp call

omit [DecidableEq P] in
theorem CallsOk.oneCopy (ok : CallsOk x s) : OneCopy x s := by
  by_cases stored : ∃ copy, Stores s.tp x.id copy
  · obtain ⟨copy, stores⟩ := stored
    refine ⟨copy, fun call member p returned writes => ⟨stores, ok.beside.copyOf stores, ?_⟩⟩
    obtain ⟨copy', stores', place⟩ := (ok.calls call member).returned p returned writes
    rw [ok.beside.unique stores stores', place]
  · refine ⟨0, fun call member p returned writes => ?_⟩
    obtain ⟨copy, stores, _⟩ := (ok.calls call member).returned p returned writes
    exact absurd ⟨copy, stores⟩ stored

omit [DecidableEq P] in
theorem CallsOk.begin (ok : CallsOk x s) {pData : Nat}
    (inside : Covers x.id (s.tp.block x.addr).dataLen pData) (opt : Opt) :
    CallsOk x ⟨s.tp, s.calls ++ [⟨opt, pData, s.calls.any Call.wrote, .searching⟩]⟩ := by
  refine ⟨ok.beside, fun call member => ?_⟩
  rcases List.mem_append.mp member with old | new
  · exact ok.calls call old
  · rw [List.mem_singleton] at new
    subst new
    refine ⟨inside, fun _ _ stage => ?_, fun _ stage => ?_, fun late => ?_⟩
    · contradiction
    · contradiction
    · obtain ⟨earlier, member', wrote⟩ := List.any_eq_true.mp late
      cases stage : earlier.stage with
      | returned p =>
        have writes : earlier.opt = .w := by
          cases opt : earlier.opt <;> simp [Call.wrote, opt, stage] at wrote ⊢
        obtain ⟨copy, stores, _⟩ := (ok.calls earlier member').returned p stage (.inl writes)
        exact ⟨copy, stores⟩
      | searching => simp [Call.wrote, stage] at wrote
      | adding pBlock offset => simp [Call.wrote, stage] at wrote

omit [DecidableEq P] in
theorem CallsOk.set (ok : CallsOk x s) {call : Call} (i : Nat) (changed : CallOk x s.tp call) :
    CallsOk x ⟨s.tp, s.calls.set i call⟩ := by
  refine ⟨ok.beside, fun other member => ?_⟩
  rcases List.mem_or_eq_of_mem_set member with old | rfl
  · exact ok.calls other old
  · exact changed

theorem turn_pass {call : Call} {i copyBlock : Nat} {node : P} {r : ThreadPrivate P × Stage}
    (found : s.calls[i]? = some call)
    (run : Returns (fun fuel => call.pass fuel node copyBlock s.tp) r) :
    turn (.pass i node copyBlock) s =
      some (⟨r.1, s.calls.set i { call with stage := r.2 }⟩, ()) := by
  simp only [turn, found, Option.bind_some, run.limit_eq, Option.map_some]

/-- A call that searches goes on to a copy only while the tree has none. -/
theorem Call.search_spec {call : Call} (beside : Beside x t) (ok : CallOk x t call)
    (stage : call.stage = .searching) (node : P) (copyBlock : Nat) :
    ∃ stage', Returns (fun fuel => call.pass fuel node copyBlock t) (t, stage') ∧
      CallOk x t { call with stage := stage' } := by
  have some' : call.pData ≠ 0 := by
    have low := ok.inside.1
    have start := (beside.placed.fits x beside.member).1
    omega
  have pass : ∀ found, Returns (fun fuel => shadowLookup fuel call.opt call.pData t) found →
      Returns (fun fuel => call.pass fuel node copyBlock t) (t, found.stage) := by
    intro found looked
    refine looked.imp fun fuel here => ?_
    simp only [Call.pass, stage, if_neg some', here, Option.map_some]
  by_cases stored : ∃ q, InTree t.avl.mem q ∧ t.avl.key q = x.id
  · obtain ⟨q, inTree, same⟩ := stored
    obtain ⟨copy, pair⟩ := beside.stored inTree same
    have stores : Stores t x.id copy := ⟨q, inTree, pair⟩
    refine ⟨_, pass _ (beside.lookup_stored stores ok.inside call.opt), ok.inside, ?_, ?_, ok.late⟩
    · intro _ _ other
      contradiction
    · intro p same _
      cases same
      exact ⟨copy, stores, rfl⟩
  · have absent : ∀ q, InTree t.avl.mem q → t.avl.key q ≠ x.id :=
      fun q inTree same => stored ⟨q, inTree, same⟩
    have ran := pass _ (beside.lookup_absent absent ok.inside call.opt)
    have early : call.late ≠ true := by
      intro late
      obtain ⟨copy, q, inTree, pair⟩ := ok.late late
      exact absent q inTree (by rw [PairTree.key, pair])
    refine ⟨_, ran, ok.inside, fun pBlock offset same => ?_, fun p same writes => ?_, ok.late⟩
    · cases opt : call.opt with
      | w =>
        rw [opt] at same
        cases same
        exact ⟨rfl, rfl, rfl⟩
      | r =>
        rw [opt] at same
        contradiction
      | c =>
        rw [opt] at same
        contradiction
    · rcases writes with writes | late
      · rw [show call.opt = .w from writes] at same
        contradiction
      · exact absurd late early

theorem Call.pass_adding {call : Call} {pBlock offset copyBlock p : Nat} {node : P}
    {t' : ThreadPrivate P} (stage : call.stage = .adding pBlock offset)
    (added : Returns (fun fuel => shadowAdd fuel (some node) (some copyBlock) call.pData pBlock
      offset t) (t', p)) :
    Returns (fun fuel => call.pass fuel node copyBlock t) (t', .returned p) := by
  refine added.imp fun fuel here => ?_
  simp only [Call.pass, stage, here, Option.map_some]

omit [DecidableEq P] in
theorem copied_ne {pBlock copyBlock b : Nat} (apart : b ≠ copyBlock) :
    t.copied pBlock copyBlock b = t.block b := Function.update_of_ne apart _ _

omit [DecidableEq P] in
/-- The copy that is linked is the one that the tree stores for the block from then on. -/
theorem Beside.linked {node : P} {copyBlock : Nat} {avl : PairTree P Nat} (beside : Beside x t)
    (new : NewBlock t node copyBlock) (linked : Linked t.avl avl node x.id copyBlock)
    (absent : ∀ q, InTree t.avl.mem q → t.avl.key q ≠ x.id) :
    Beside x ⟨t.version, avl, t.copied x.addr copyBlock⟩ ∧
      Stores ⟨t.version, avl, t.copied x.addr copyBlock⟩ x.id copyBlock := by
  have original : x.addr ≠ copyBlock := new.version x beside.member
  refine ⟨⟨?_, beside.member, linked.sound, fun q member => ?_⟩,
    node, (linked.members node).mpr (.inl rfl), linked.new⟩
  · exact beside.placed.congr fun y member => copied_ne (new.version y member)
  · rcases (linked.members q).mp member with rfl | old
    · refine ⟨copyBlock, by rw [linked.new], fun y member' => new.version y member', .inl ⟨?_, ?_⟩⟩
      · rw [PairTree.key, linked.new]
      · refine ⟨fun y member' => new.version y member', ?_, ?_⟩
        · simp only [ThreadPrivate.copied, Function.update_self, Function.update_of_ne original]
        · simp only [ThreadPrivate.copied, Function.update_self]
    · obtain ⟨pBlock, stored, outside, own | ⟨other, fits, place⟩⟩ := beside.entries q old
      · exact absurd own.1 (absent q old)
      · have apart : pBlock ≠ copyBlock := by
          rintro rfl
          exact new.tree (t.avl.key q) ⟨q, old, by rw [← stored]; rfl⟩
        have key : avl.key q = t.avl.key q := by rw [PairTree.key, linked.others q old]; rfl
        refine ⟨pBlock, by rw [linked.others q old, stored], outside, .inr ?_⟩
        simp only [key, copied_ne apart, copied_ne original]
        exact ⟨other, fits, place⟩

/-- A section in which a copy is added first keeps to the invariant. -/
theorem CallsOk.add (ok : CallsOk x s) {call : Call} {i pBlock offset copyBlock : Nat} {node : P}
    (found : s.calls[i]? = some call) (stage : call.stage = .adding pBlock offset)
    (new : NewBlock s.tp node copyBlock)
    (absent : ∀ q, InTree s.tp.avl.mem q → s.tp.avl.key q ≠ x.id) :
    ∃ s', turn (.pass i node copyBlock) s = some (s', ()) ∧ CallsOk x s' := by
  have own := ok.calls call (List.mem_of_getElem? found)
  obtain ⟨_, rfl, rfl⟩ := own.adding pBlock offset stage
  have addr := ok.beside.placed.addrs x ok.beside.member
  obtain ⟨avl, run, linked⟩ := shadowAdd_linked ok.beside.sound new.node (by rwa [addr]) copyBlock
    call.pData (call.pData - x.id)
  rw [addr] at linked
  obtain ⟨beside, stores⟩ := ok.beside.linked new linked absent
  refine ⟨_, turn_pass found (Call.pass_adding stage run), beside, fun other member => ?_⟩
  have original : x.addr ≠ copyBlock := new.version x ok.beside.member
  have none' : ∀ copy, ¬ Stores s.tp x.id copy := by
    rintro copy ⟨q, inTree, pair⟩
    exact absent q inTree (by rw [PairTree.key, pair])
  have kept : ∀ call, CallOk x s.tp call →
      CallOk x ⟨s.tp.version, avl, s.tp.copied x.addr copyBlock⟩ call := by
    intro call own
    refine ⟨?_, own.adding, fun p returned writes => ?_, fun late => ⟨copyBlock, stores⟩⟩
    · simpa only [copied_ne original] using own.inside
    · obtain ⟨copy, stored, _⟩ := own.returned p returned writes
      exact absurd stored (none' copy)
  rcases List.mem_or_eq_of_mem_set member with old | rfl
  · exact kept other (ok.calls other old)
  · have changed := kept call own
    refine ⟨changed.inside, ?_, ?_, changed.late⟩
    · intro _ _ other
      contradiction
    · intro p same _
      cases same
      exact ⟨copyBlock, stores, rfl⟩

theorem CallsOk.keeps {op : Turn P} (ok : CallsOk x s) (able : possible x op s)
    (first : addsFirst x op s) : ∃ s', turn op s = some (s', ()) ∧ CallsOk x s' := by
  cases op with
  | call opt pData => exact ⟨_, rfl, ok.begin able opt⟩
  | pass i node copyBlock =>
    obtain ⟨⟨call, found, unfinished⟩, new⟩ := able
    have own := ok.calls call (List.mem_of_getElem? found)
    cases stage : call.stage with
    | searching =>
      obtain ⟨stage', run, changed⟩ := call.search_spec ok.beside own stage node copyBlock
      exact ⟨_, turn_pass found run, ok.set i changed⟩
    | adding pBlock offset =>
      exact ok.add found stage new (first call pBlock offset found stage)
    | returned p => exact absurd stage (unfinished p)

/-- A copy that is added to a tree with a node for the block is not the one that the tree
stores. -/
theorem CallsOk.forced {op : Turn P} (ok : CallsOk x s) (able : possible x op s)
    (ran : turn op s = some (s', ())) (one : OneCopy x s') : addsFirst x op s := by
  cases op with
  | call opt pData => trivial
  | pass i node copyBlock =>
    intro call pBlock offset found stage q inTree same
    obtain ⟨_, new⟩ := able
    have own := ok.calls call (List.mem_of_getElem? found)
    obtain ⟨opt, rfl, rfl⟩ := own.adding pBlock offset stage
    have addr := ok.beside.placed.addrs x ok.beside.member
    obtain ⟨avl, run, shrunk, kept⟩ := shadowAdd_dropped ok.beside.sound new.node inTree
      (by rwa [addr]) copyBlock call.pData (call.pData - x.id)
    have after := turn_pass found (Call.pass_adding stage run)
    cases ran.symm.trans after
    obtain ⟨copy, one⟩ := one
    have bound : i < s.calls.length := (List.getElem?_eq_some_iff.mp found).1
    obtain ⟨⟨q', inTree', pair'⟩, _, place⟩ := one _ (List.mem_set bound _) _ rfl (.inl opt)
    have old := shrunk.members q' inTree'
    have stored : Stores s.tp x.id copy := ⟨q', old, by rw [← shrunk.pairs q' old]; exact pair'⟩
    have apart : copy ≠ copyBlock := fun same => new.tree x.id (same ▸ stored)
    dsimp only at place
    omega

end steps

/-- In every run of calls for the addresses of one block, over any tree with the other blocks, the
sections all take place, and the calls that write share one private copy with all later calls, if
and only if no copy is added to a tree that has a node for the block. -/
theorem one_copy_iff [DecidableEq P] {x : Pairs.AddrPair Nat} {t : ThreadPrivate P}
    (start : Beside x t) {ops : List (Turn P)} (run : Meets turn (possible x) ops ⟨t, []⟩) :
    Follows turn (fun _ _ => ()) (fun _ _ _ _ _ => True) (fun s _ => OneCopy x s) ops ⟨t, []⟩ () ↔
      Meets turn (addsFirst x) ops ⟨t, []⟩ := by
  have initial : CallsOk x ⟨t, []⟩ := ⟨start, by simp⟩
  have matching : ∀ (s : Calls P) (_ : Unit), CallsOk x s → OneCopy x s := fun _ _ ok => ok.oneCopy
  refine Meets.follows_iff_meets matching ?_ ?_ initial run
  · intro op s _ ok able first
    obtain ⟨s', ran, ok'⟩ := ok.keeps able first
    exact ⟨s', (), ran, trivial, ok'⟩
  · intro op s _ s' _ ok able ran _ one
    exact ok.forced able ran one

/-- The address 1000 of a block of eight bytes, whose data lie at 2000. -/
def oneBlock : ThreadPrivate Nat where
  version := ⟨[⟨1000, 7⟩], [⟨1, 7⟩]⟩
  avl := noPairs
  block := fun _ => ⟨⟨1, 0, 1000, 0, 1, 1, 8⟩, 2000⟩

theorem oneBlock_empty (q : Nat) : ¬ InTree oneBlock.avl.mem q := by
  intro inTree
  have wellFormed : WellFormed oneBlock.avl.key oneBlock.avl.mem .nil :=
    ⟨rfl, trivial, trivial, .nil⟩
  cases wellFormed.inTree_iff.mp inTree

theorem oneBlock_beside : Beside ⟨1000, 7⟩ oneBlock := by
  refine ⟨⟨?_, ?_, ?_, ?_⟩, ?_, ?_, ?_⟩
  · simp [oneBlock]
  · simp [oneBlock]
  · simp [oneBlock]
  · simp [oneBlock, Fits]
  · simp [oneBlock]
  · exact reachable_pairTree rfl .refl
  · intro q inTree
    exact absurd inTree (oneBlock_empty q)

/-- One call that writes, over an empty tree. -/
theorem one_copy_first : Follows turn (fun _ _ => ()) (fun _ _ _ _ _ => True)
    (fun s _ => OneCopy ⟨1000, 7⟩ s) [.call .w 1004, .pass 0 1 20, .pass 0 1 20]
    ⟨oneBlock, []⟩ () := by
  have new : NewBlock oneBlock 1 20 := by
    refine ⟨rfl, by simp [oneBlock], ?_⟩
    rintro addr ⟨q, inTree, _⟩
    exact oneBlock_empty q inTree
  have begun : turn (.call .w 1004) ⟨oneBlock, []⟩ =
      some (⟨oneBlock, [⟨.w, 1004, false, .searching⟩]⟩, ()) := rfl
  have passed : Returns (fun fuel => (⟨.w, 1004, false, .searching⟩ : Call).pass fuel 1 20 oneBlock)
      (oneBlock, .adding 7 4) := by
    have inside : Covers 1000 (oneBlock.block 7).dataLen 1004 := by simp [Covers, oneBlock]
    have absent : ∀ q, InTree oneBlock.avl.mem q → oneBlock.avl.key q ≠ 1000 :=
      fun q inTree => absurd inTree (oneBlock_empty q)
    refine (oneBlock_beside.lookup_absent absent inside .w).imp fun fuel looked => ?_
    simp only [Call.pass, looked]
    rfl
  have searched : turn (.pass 0 1 20) ⟨oneBlock, [⟨.w, 1004, false, .searching⟩]⟩ =
      some (⟨oneBlock, [⟨.w, 1004, false, .adding 7 4⟩]⟩, ()) :=
    turn_pass (s := ⟨oneBlock, [⟨.w, 1004, false, .searching⟩]⟩) rfl passed
  have run : Meets turn (possible ⟨1000, 7⟩) [.call .w 1004, .pass 0 1 20, .pass 0 1 20]
      ⟨oneBlock, []⟩ := by
    refine ⟨by simp [possible, Covers, oneBlock], fun s' out ran => ?_⟩
    cases begun.symm.trans ran
    refine ⟨⟨⟨_, rfl, by simp⟩, new⟩, fun s' out ran => ?_⟩
    cases searched.symm.trans ran
    exact ⟨⟨⟨_, rfl, by simp⟩, new⟩, fun _ _ _ => trivial⟩
  refine (one_copy_iff oneBlock_beside run).mpr ⟨trivial, fun s' out ran => ?_⟩
  cases begun.symm.trans ran
  refine ⟨fun _ _ _ _ _ q inTree => absurd inTree (oneBlock_empty q), fun s' out ran => ?_⟩
  cases searched.symm.trans ran
  exact ⟨fun _ _ _ _ _ q inTree => absurd inTree (oneBlock_empty q), fun _ _ _ => trivial⟩

end MoonInWater.Sync.Shadow
