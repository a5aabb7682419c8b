import MoonInWater.Sync.CreateVersion

/-! The error paths of _create_new_version: what they undo of the new version, and which lists of a
packet do not come to them before the data section. -/
namespace MoonInWater.Sync.CreateVersion
open Pairs Commit
variable {P : Type}

section
variable (original : P → Option P)

/-- The block whose reference an entry of order_id holds. -/
def target (e : Pairs.AddrPair (Option (Made P))) : Option P :=
  match e.addr with
  | some (.kept p) => some p
  | some (.dump p) => some (dumpOriginal original p)
  | _ => none

/-- The block of an entry that the call has made. -/
def owned (e : Pairs.AddrPair (Option (Made P))) : Option (Made P) :=
  match e.addr with
  | some (.kept _) => none
  | made => made

end

section
variable [DecidableEq P] {original : P → Option P} {h h' before : Heap P} {order : Order P}
variable {targets targets' : List P} {made made' : List (Made P)}

/-- The references and the blocks that a part of the call adds, which changes nothing else. -/
structure Adds (h h' : Heap P) (targets : List P) (made : List (Made P)) : Prop where
  ref : ∀ q, h'.ref q = h.ref q + targets.count q
  made : h'.made.Perm (made ++ h.made)
  same : h' = { h with ref := h'.ref, made := h'.made }

theorem Adds.refl (h : Heap P) : Adds h h [] [] := ⟨by simp, .refl _, rfl⟩

theorem Adds.trans {h'' : Heap P} (first : Adds h h' targets made)
    (second : Adds h' h'' targets' made') : Adds h h'' (targets ++ targets') (made' ++ made) where
  ref q := by
    rw [second.ref, first.ref, List.count_append]
    omega
  made := by
    rw [List.append_assoc]
    exact second.made.trans (first.made.append_left made')
  same := by
    rw [second.same, first.same]

theorem Adds.congr (adds : Adds h h' targets made) (perm : targets.Perm targets')
    (perm' : made.Perm made') : Adds h h' targets' made' where
  ref q := by rw [adds.ref, perm.count_eq]
  made := adds.made.trans (perm'.append_right h.made)
  same := adds.same

section
variable {base : List (Pairs.AddrPair P)} {dels : List Nat} {writes : List WriteIds}
variable {env : Env} {ix : Indexes} {k n : Nat} {w w' : Work P}

-- the turns of both loops, which are compared side by side
attribute [local simp] mergeLoop mergeBase

end

section
variable {all : StructAll} {env : Env} {ix : Indexes} {first : NewIds} {i : Nat} {w w' : Work P}

attribute [local simp] newLoop createNews

end

/-- The memory holds a reference for each entry of an order, and the blocks made for it, besides
what there was before. -/
structure Filled (original : P → Option P) (before h : Heap P) (order : Order P) : Prop where
  ref : ∀ q, h.ref q = before.ref q + (order.filterMap (target original)).count q
  made : h.made.Perm (order.filterMap owned)

theorem Filled.perm {order' : Order P} (filled : Filled original before h order)
    (perm : order'.Perm order) : Filled original before h order' where
  ref q := by rw [filled.ref, (perm.filterMap _).count_eq]
  made := filled.made.trans (perm.filterMap _).symm

theorem refDec_held {p : P} (n : Nat) (more : 1 < h.ref p) :
    h.refDec original (n + 1) p = { h with ref := Function.update h.ref p (h.ref p - 1) } := by
  simp only [Heap.refDec]
  rw [if_neg (by omega)]

/-- An entry gives back its reference, or the block that was made for it. -/
theorem Filled.entryDec {e : Pairs.AddrPair (Option (Made P))}
    (filled : Filled original before h (e :: order))
    (held : ∀ q, target original e = some q → 0 < before.ref q) :
    Filled original before (h.entryDec original e) order ∧
      h.entryDec original e =
        { h with ref := (h.entryDec original e).ref, made := (h.entryDec original e).made } := by
  obtain ⟨ref, made⟩ := filled
  have gives : ∀ p, target original e = some p → h.refDec original 2 p =
      { h with ref := Function.update h.ref p (h.ref p - 1) } ∧
      ∀ q, Function.update h.ref p (h.ref p - 1) q =
        before.ref q + (order.filterMap (target original)).count q := by
    intro p here
    have alive := held p here
    have counts := ref p
    rw [List.filterMap_cons_some here, List.count_cons_self] at counts
    refine ⟨refDec_held 1 (by omega), fun q => ?_⟩
    by_cases same : q = p
    · subst same
      rw [Function.update_self]
      omega
    · have other : ¬ (p == q) = true := by simpa using fun is : p = q => same is.symm
      rw [Function.update_of_ne same, ref q, List.filterMap_cons_some here, List.count_cons,
        if_neg other, Nat.add_zero]
  cases addr : e.addr with
  | none =>
    have noTarget : target original e = none := by simp [target, addr]
    have noBlock : owned e = none := by simp [owned, addr]
    have dec : h.entryDec original e = h := by simp [Heap.entryDec, addr]
    rw [dec]
    rw [List.filterMap_cons_none noBlock] at made
    simp only [List.filterMap_cons_none noTarget] at ref
    exact ⟨⟨ref, made⟩, rfl⟩
  | some block =>
    cases block with
    | kept p =>
      have here : target original e = some p := by simp [target, addr]
      have noBlock : owned e = none := by simp [owned, addr]
      have dec : h.entryDec original e = h.refDec original 2 p := by simp [Heap.entryDec, addr]
      obtain ⟨is, refs⟩ := gives p here
      rw [List.filterMap_cons_none noBlock] at made
      rw [dec, is]
      exact ⟨⟨refs, made⟩, rfl⟩
    | dump p =>
      have here : target original e = some (dumpOriginal original p) := by simp [target, addr]
      have block : owned e = some (.dump p) := by simp [owned, addr]
      obtain ⟨is, refs⟩ := gives _ here
      have dec : h.entryDec original e = { h with
          ref := Function.update h.ref (dumpOriginal original p)
            (h.ref (dumpOriginal original p) - 1)
          made := h.made.erase (.dump p) } := by simp [Heap.entryDec, addr, is]
      rw [List.filterMap_cons_some block] at made
      rw [dec]
      exact ⟨⟨refs, List.cons_perm_iff_perm_erase.mp made.symm |>.2.symm⟩, rfl⟩
    | created typeId typeNum =>
      have noTarget : target original e = none := by simp [target, addr]
      have block : owned e = some (.created typeId typeNum) := by simp [owned, addr]
      have dec : h.entryDec original e =
          { h with made := h.made.erase (.created typeId typeNum) } := by simp [Heap.entryDec, addr]
      rw [List.filterMap_cons_some block] at made
      simp only [List.filterMap_cons_none noTarget] at ref
      rw [dec]
      exact ⟨⟨ref, List.cons_perm_iff_perm_erase.mp made.symm |>.2.symm⟩, rfl⟩

/-- The error path gives back all that an order holds. -/
theorem Filled.undone (filled : Filled original before h order)
    (held : ∀ q ∈ order.filterMap (target original), 0 < before.ref q) :
    order.foldl (Heap.entryDec original) h = { h with ref := before.ref, made := [] } := by
  induction order generalizing h with
  | nil =>
    obtain ⟨ref, made⟩ := filled
    have same : h.ref = before.ref := funext fun q => by simpa using ref q
    have none : h.made = [] := made.eq_nil
    rw [List.foldl_nil, ← same, ← none]
  | cons e order ih =>
    have here : ∀ q, target original e = some q → 0 < before.ref q := fun q is =>
      held q (by rw [List.filterMap_cons_some is]; exact List.mem_cons_self)
    have later : ∀ q ∈ order.filterMap (target original), 0 < before.ref q := fun q member =>
      held q (List.mem_filterMap.mpr (by
        obtain ⟨e', inside, is⟩ := List.mem_filterMap.mp member
        exact ⟨e', List.mem_cons_of_mem _ inside, is⟩))
    obtain ⟨rest, same⟩ := filled.entryDec here
    rw [List.foldl_cons, ih rest later, same]

/-- The memory of the call while nothing of it is undone. -/
def Working (before h : Heap P) : Prop :=
  h = { before.incUser with ref := h.ref, made := h.made, cells := h.cells }

/-- The work of a call that has come to the data section. -/
structure Reached (original : P → Option P) (before : Heap P) (w : Work P) : Prop where
  filled : Filled original before w.heap w.order
  held : ∀ q ∈ w.order.filterMap (target original), 0 < before.ref q
  working : Working before w.heap

theorem Reached.alloc {w : Work P} (reached : Reached original before w) (cells : List Cell) :
    Reached original before ⟨{ w.heap with cells := cells }, w.order⟩ where
  filled := ⟨reached.filled.ref, reached.filled.made⟩
  held := reached.held
  working := by
    have working := reached.working
    unfold Working at working ⊢
    rw [working]

theorem Reached.perm {w : Work P} (reached : Reached original before w) {order : Order P}
    (perm : order.Perm w.order) : Reached original before ⟨w.heap, order⟩ where
  filled := reached.filled.perm perm
  held q member := reached.held q ((perm.filterMap _).mem_iff.mp member)
  working := reached.working

section
variable {orderId : List (Pairs.AddrPair P)} {env : Env} {w : Work P}

/-- The memory for the data is there whenever it is written. -/
def DataThere (env : Env) : Prop :=
  env.dataEnd = .noHead ∨ env.dataEnd = .otherLength ∨ (env.prevData = true → env.data = true)

end

section
variable {base : List (Pairs.AddrPair P)} {dels : List Nat} {writes : List WriteIds}
variable {news : List NewIds} {ix : Indexes}

def newBlocks (news : List NewIds) : List (Made P) :=
  match news with
  | [] => []
  | first :: _ => List.replicate news.length (.created first.typeId first.typeNum)

end

/-- The deleted and the written ids are ascending ids of the base, none of them both; some block is
written, the new blocks get a type that has a length, and there is memory for all. -/
structure Legal (all : StructAll) (env : Env) (orderId : List (Pairs.AddrPair P)) (pac : Packet) :
    Prop where
  plan : Plan pac.delIds (pac.writes.map (·.id)) orderId
  wrote : pac.writes ≠ []
  types : ∀ first ∈ pac.newIds.head?, 0 < all.structLen first.typeId * first.typeNum
  arrays : env.prevPairs = true ∧ env.version = true ∧ env.orderId = true ∧ env.orderAddr = true
  dumps : ∀ i < pac.writes.length, env.dump i
  newBlocks : ∀ i < pac.newIds.length, env.newBlock i
  data : DataThere env

section
variable {all : StructAll} {env : Env} {orderId : List (Pairs.AddrPair P)} {pac : Packet}

end

end
/-- Memory for all; the work on the data section ends as given. -/
def enough (dataEnd : DataEnd) : Env :=
  ⟨true, true, true, fun _ => true, fun _ => true, true, true, true, dataEnd⟩

/-- A version of status NORMAL without users; each block has the reference of it. -/
def quiet : Heap Nat := ⟨0, 0, fun _ => 1, [], [], []⟩

end MoonInWater.Sync.CreateVersion
