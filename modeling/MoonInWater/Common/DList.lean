import MoonInWater.Lib.Chain

/-! The intrusive double list of moon_common.h on a heap of links. -/
namespace MoonInWater.DList
open Chain
variable {P : Type} [DecidableEq P] {d : P → Link P} {l r : List P} {p q : P}

def dlistInsert (head : Option P) (p : P) (d : P → Link P) : P → Link P :=
  match head with
  | none => d
  | some next =>
    let d := setNext (some p) (some next) d
    let d := match (d next).prev with
      | none => d
      | some prev => setNext (some prev) (some p) (setPrev (some p) (some prev) d)
    setPrev (some next) (some p) d

def dlistAppend (head : Option P) (p : P) (d : P → Link P) : P → Link P :=
  match head with
  | none => d
  | some prev =>
    let d := setPrev (some p) (some prev) d
    let d := match (d prev).next with
      | none => d
      | some next => setPrev (some next) (some p) (setNext (some p) (some next) d)
    setNext (some prev) (some p) d

/-- dlist_del, with the element after the deleted one. -/
def dlistDel (p : P) (d : P → Link P) : (P → Link P) × Option P :=
  let d := setNext (d p).prev (d p).next d
  let d := setPrev (d p).next (d p).prev d
  (Function.update d p loose, (d p).next)

/-- dlist_cut: no element stands before `p` any more. -/
def dlistCut (p : P) (d : P → Link P) : P → Link P :=
  match (d p).prev with
  | none => d
  | some prev => setPrev (some p) none (setNext (some prev) none d)

theorem dlistDel_alone (isolated : d p = loose) : dlistDel p d = (d, none) := by
  have same : Function.update d p loose = d := by rw [← isolated, Function.update_eq_self]
  simp only [dlistDel, isolated, loose, setNext, setPrev]
  exact congrArg (·, none) same

/-- Deletion closes the gap in the chain and writes to no other chain. -/
theorem dlistDel_linked (linked : Linked d none (l ++ p :: r) none)
    (distinct : (l ++ p :: r).Nodup) : (dlistDel p d).2 = r.head? ∧
      Linked (dlistDel p d).1 none (l ++ r) none ∧ (dlistDel p d).1 p = loose ∧
      ∀ q ∉ l ++ p :: r, (dlistDel p d).1 q = d q := by
  have link := linked.at
  obtain ⟨left, _, right⟩ := linked_middle.mp linked
  rw [List.nodup_middle, List.nodup_cons, List.nodup_append] at distinct
  obtain ⟨outside, inLeft, inRight, apart⟩ := distinct
  rw [List.mem_append, not_or] at outside
  have notLast : some p ≠ l.getLast? := fun same => outside.1 (List.mem_of_getLast? same.symm)
  have notHead : some p ≠ r.head? := fun same => outside.2 (List.mem_of_head? same.symm)
  have kept : setNext l.getLast? r.head? d p = ⟨l.getLast?, r.head?⟩ := by
    rw [setNext_apart notLast, link]
  have result : dlistDel p d =
      (Function.update (setPrev r.head? l.getLast? (setNext l.getLast? r.head? d)) p loose,
        r.head?) := by
    simp only [dlistDel, link, kept, setPrev_apart notHead]
  rw [result]
  refine ⟨rfl, ?_, Function.update_self .., fun q other => ?_⟩
  · apply Linked.congr (d := setPrev r.head? l.getLast? (setNext l.getLast? r.head? d))
    · rw [linked_append, Option.or_none, Option.or_none]
      constructor
      · refine (left.setNext_last inLeft).congr fun q member => setPrev_apart fun same => ?_
        exact apart q member q (List.mem_of_head? same.symm) rfl
      · refine Linked.setPrev_head (right.congr fun q member => ?_) inRight
        refine setNext_apart fun same => ?_
        exact apart q (List.mem_of_getLast? same.symm) q member rfl
    · intro q member
      refine Function.update_of_ne (fun same => ?_) ..
      subst same
      rcases List.mem_append.mp member with first | second
      · exact outside.1 first
      · exact outside.2 second
  · simp only [List.mem_append, List.mem_cons, not_or] at other
    have above : some q ≠ l.getLast? := fun same => other.1 (List.mem_of_getLast? same.symm)
    have below : some q ≠ r.head? := fun same => other.2.2 (List.mem_of_head? same.symm)
    refine (Function.update_of_ne other.2.1 ..).trans ?_
    rw [setPrev_apart below, setNext_apart above]

/-- A lone element is taken in behind the head of a chain. -/
theorem dlistAppend_linked (linked : Linked d none (q :: r) none) (isolated : d p = loose)
    (distinct : (q :: r).Nodup) (fresh : p ∉ q :: r) :
    Linked (dlistAppend (some q) p d) none (q :: p :: r) none ∧
      ∀ x ∉ q :: p :: r, dlistAppend (some q) p d x = d x := by
  have link := linked.head
  rw [List.nodup_cons] at distinct
  rw [List.mem_cons, not_or] at fresh
  have apart : q ≠ p := fun same => fresh.1 same.symm
  cases r with
  | nil =>
    have result : dlistAppend (some q) p d = Function.update (Function.update d p ⟨some q, none⟩)
        q ⟨none, some p⟩ := by
      simp [dlistAppend, setPrev, setNext, apart, link, isolated, loose]
    rw [result]
    refine ⟨⟨by simp, by simp [fresh.1], trivial⟩, fun x other => ?_⟩
    simp only [List.mem_cons, not_or] at other
    rw [Function.update_of_ne other.1, Function.update_of_ne other.2.1]
  | cons n r =>
    have below := linked.2.1
    rw [Option.or_none] at below
    rw [List.mem_cons, not_or] at fresh
    have apart' : n ≠ p := fun same => fresh.2.1 same.symm
    have apart'' : q ≠ n := fun same => distinct.1 (same ▸ List.mem_cons_self ..)
    have result : dlistAppend (some q) p d = Function.update (Function.update (Function.update d
        p ⟨some q, some n⟩) n ⟨some p, r.head?⟩) q ⟨none, some p⟩ := by
      simp [dlistAppend, setPrev, setNext, apart, apart', apart'', link, below, isolated, loose]
    rw [result]
    refine ⟨⟨by simp, ?_, ?_, ?_⟩, fun x other => ?_⟩
    · rw [Function.update_of_ne fresh.1, Function.update_of_ne fresh.2.1]
      simp
    · rw [Function.update_of_ne apart''.symm]
      simp
    · refine linked.2.2.congr fun x member => ?_
      have distinct' := List.nodup_cons.mp distinct.2
      rw [Function.update_of_ne, Function.update_of_ne, Function.update_of_ne]
      · exact fun same => fresh.2.2 (same ▸ member)
      · exact fun same => distinct'.1 (same ▸ member)
      · exact fun same => distinct.1 (List.mem_cons_of_mem _ (same ▸ member))
    · simp only [List.mem_cons, not_or] at other
      rw [Function.update_of_ne other.1, Function.update_of_ne other.2.2.1,
        Function.update_of_ne other.2.1]

/-- A lone element becomes the new head of a chain. -/
theorem dlistInsert_linked (linked : Linked d none l none) (isolated : d p = loose)
    (distinct : l.Nodup) (fresh : p ∉ l) : Linked (dlistInsert l.head? p d) none (p :: l) none ∧
      ∀ x ∉ p :: l, dlistInsert l.head? p d x = d x := by
  cases l with
  | nil => exact ⟨Linked.alone isolated, fun _ _ => rfl⟩
  | cons n r =>
    have link := linked.head
    rw [List.mem_cons, not_or] at fresh
    have apart : n ≠ p := fun same => fresh.1 same.symm
    have result : dlistInsert (some n) p d = Function.update (Function.update d
        p ⟨none, some n⟩) n ⟨some p, r.head?⟩ := by
      simp [dlistInsert, setPrev, setNext, apart, link, isolated, loose]
    rw [List.head?_cons, result]
    refine ⟨⟨?_, ?_, ?_⟩, fun x other => ?_⟩
    · rw [Function.update_of_ne fresh.1]
      simp
    · simp
    · refine linked.2.congr fun x member => ?_
      rw [Function.update_of_ne, Function.update_of_ne]
      · exact fun same => fresh.2 (same ▸ member)
      · exact fun same => (List.nodup_cons.mp distinct).1 (same ▸ member)
    · simp only [List.mem_cons, not_or] at other
      rw [Function.update_of_ne other.2.1, Function.update_of_ne other.1]

/-- Behind the last element of a chain, dlist_append takes in a whole chain. -/
theorem dlistAppend_join (left : Linked d none (l ++ [q]) none)
    (right : Linked d none (p :: r) none) (apart : (l ++ q :: p :: r).Nodup) :
    Linked (dlistAppend (some q) p d) none (l ++ q :: p :: r) none ∧
      ∀ x, x ≠ q → x ≠ p → dlistAppend (some q) p d x = d x := by
  have other : q ≠ p := by
    intro same
    have tails := (List.nodup_append.mp apart).2.1
    exact (List.nodup_cons.mp tails).1 (same ▸ List.mem_cons_self)
  have last : (d q).next = none := congrArg Link.next left.at
  have result : dlistAppend (some q) p d =
      Function.update (Function.update d p { d p with prev := some q }) q
        { d q with next := some p } := by
    simp [dlistAppend, setPrev, setNext, other, last]
  rw [result]
  have frame : ∀ x, x ≠ q → x ≠ p → Function.update (Function.update d p
      { d p with prev := some q }) q { d q with next := some p } x = d x := by
    intro x first second
    rw [Function.update_of_ne first, Function.update_of_ne second]
  constructor
  · apply left.join right apart
    · rw [Function.update_self]
    · rw [Function.update_of_ne other.symm, Function.update_self]
    · exact frame
  · exact frame

/-- In front of the head of a chain, dlist_insert takes in a whole chain. -/
theorem dlistInsert_join (left : Linked d none (l ++ [q]) none)
    (right : Linked d none (p :: r) none) (apart : (l ++ q :: p :: r).Nodup) :
    Linked (dlistInsert (some p) q d) none (l ++ q :: p :: r) none ∧
      ∀ x, x ≠ q → x ≠ p → dlistInsert (some p) q d x = d x := by
  have other : q ≠ p := by
    intro same
    have tails := (List.nodup_append.mp apart).2.1
    exact (List.nodup_cons.mp tails).1 (same ▸ List.mem_cons_self)
  have first : (d p).prev = none := congrArg Link.prev right.head
  have result : dlistInsert (some p) q d =
      Function.update (Function.update d q { d q with next := some p }) p
        { d p with prev := some q } := by
    simp [dlistInsert, setPrev, setNext, other.symm, first]
  rw [result]
  have frame : ∀ x, x ≠ q → x ≠ p → Function.update (Function.update d q
      { d q with next := some p }) p { d p with prev := some q } x = d x := by
    intro x first second
    rw [Function.update_of_ne second, Function.update_of_ne first]
  constructor
  · apply left.join right apart
    · rw [Function.update_of_ne other, Function.update_self]
    · rw [Function.update_self]
    · exact frame
  · exact frame

/-- dlist_cut splits a chain in two. -/
theorem dlistCut_linked (linked : Linked d none (l ++ q :: p :: r) none) :
    Linked (dlistCut p d) none (l ++ [q]) none ∧ Linked (dlistCut p d) none (p :: r) none := by
  have apart := linked.nodup
  rw [List.append_cons] at linked apart
  obtain ⟨left, right⟩ := linked_append.mp linked
  rw [List.getLast?_concat, Option.some_or] at right
  obtain ⟨leftApart, rightApart, between⟩ := List.nodup_append.mp apart
  have result : dlistCut p d = setPrev (some p) none (setNext (some q) none d) := by
    rw [dlistCut, congrArg Link.prev right.1]
  rw [result]
  constructor
  · have cut : Linked (setNext (l ++ [q]).getLast? none d) none (l ++ [q]) none :=
      left.setNext_last leftApart
    rw [List.getLast?_concat] at cut
    refine cut.congr fun x member => setPrev_apart fun same => ?_
    exact between x member p List.mem_cons_self (Option.some.inj same)
  · have cut : Linked (setPrev (p :: r).head? none d) none (p :: r) none :=
      right.setPrev_head rightApart
    rw [List.head?_cons] at cut
    refine cut.congr fun x member => ?_
    have other : some x ≠ some q := fun same =>
      between q (List.mem_append_right _ List.mem_cons_self) x member (Option.some.inj same).symm
    by_cases head : x = p
    · subst head
      simp only [setPrev, Function.update_self, setNext_apart other]
    · have apart : some x ≠ some p := fun same => head (Option.some.inj same)
      rw [setPrev_apart apart, setPrev_apart apart, setNext_apart other]

section chains
variable {rest : List (List P)}

theorem dlistDel_chains (chains : Chains d ((l ++ p :: r) :: rest)) :
    (dlistDel p d).2 = r.head? ∧ Chains (dlistDel p d).1 ((l ++ r) :: rest) := by
  obtain ⟨linked, others⟩ := List.forall_mem_cons.mp chains.linked
  obtain ⟨inChain, inRest, apart⟩ := List.nodup_append.mp chains.distinct
  obtain ⟨next, linked', alone, frame⟩ := dlistDel_linked linked inChain
  refine ⟨next, List.forall_mem_cons.mpr ⟨linked', fun c member => ?_⟩, ?_, fun q outside => ?_⟩
  · refine (others c member).congr fun q inside => frame q fun here => ?_
    exact apart q here q (List.mem_flatten_of_mem member inside) rfl
  · refine List.Nodup.sublist ?_ chains.distinct
    refine List.Sublist.append (List.Sublist.append_left (List.sublist_cons_self p r) l) ?_
    exact List.Sublist.refl _
  · by_cases same : q = p
    · exact same ▸ alone
    · have free : q ∉ ((l ++ p :: r) :: rest).flatten := by
        simp only [List.flatten_cons, List.mem_append, List.mem_cons, not_or] at outside ⊢
        exact ⟨⟨outside.1.1, same, outside.1.2⟩, outside.2⟩
      rw [frame q fun here => free (List.mem_append_left _ here)]
      exact chains.isolated q free

theorem dlistAppend_chains (chains : Chains d ((q :: r) :: rest))
    (fresh : p ∉ ((q :: r) :: rest).flatten) :
    Chains (dlistAppend (some q) p d) ((q :: p :: r) :: rest) := by
  obtain ⟨linked, others⟩ := List.forall_mem_cons.mp chains.linked
  have distinct := (List.nodup_append.mp chains.distinct).1
  have outside : p ∉ q :: r := fun member => fresh (List.mem_append_left _ member)
  obtain ⟨linked', frame⟩ :=
    dlistAppend_linked linked (chains.isolated p fresh) distinct outside
  exact chains.grow linked' (List.Perm.swap ..) fresh frame

theorem dlistInsert_chains (chains : Chains d (l :: rest)) (fresh : p ∉ (l :: rest).flatten) :
    Chains (dlistInsert l.head? p d) ((p :: l) :: rest) := by
  obtain ⟨linked, others⟩ := List.forall_mem_cons.mp chains.linked
  have distinct := (List.nodup_append.mp chains.distinct).1
  have outside : p ∉ l := fun member => fresh (List.mem_append_left _ member)
  obtain ⟨linked', frame⟩ :=
    dlistInsert_linked linked (chains.isolated p fresh) distinct outside
  exact chains.grow linked' (List.Perm.refl _) fresh frame

end chains
end MoonInWater.DList
