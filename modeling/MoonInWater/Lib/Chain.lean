import Mathlib.Data.List.Induction
import Mathlib.Data.List.Nodup
import Mathlib.Logic.Function.Basic
import Mathlib.Tactic.Common

/-! Doubly linked chains on a heap of links. -/
namespace MoonInWater.Chain
variable {P : Type}

structure Link (P : Type) where
  prev : Option P
  next : Option P
deriving DecidableEq

/-- The links of an element that is alone. -/
def loose : Link P := ⟨none, none⟩

/-- The elements are linked one after the other, between the neighbours `before` and `after`. -/
def Linked (d : P → Link P) (before : Option P) : List P → Option P → Prop
  | [], _ => True
  | p :: l, after => d p = ⟨before, l.head?.or after⟩ ∧ Linked d (some p) l after

variable {d d' : P → Link P} {before after : Option P} {l r : List P}

theorem linked_append : Linked d before (l ++ r) after ↔
    Linked d before l (r.head?.or after) ∧ Linked d (l.getLast?.or before) r after := by
  induction l generalizing before with
  | nil => simp [Linked]
  | cons p l ih =>
    have last : (l.getLast?).or (some p) = ((p :: l).getLast?).or before := by
      cases l with
      | nil => rfl
      | cons q l => simp [List.getLast?_eq_some_getLast]
    rw [List.cons_append, Linked, Linked, ih, last, and_assoc, List.head?_append, Option.or_assoc]

theorem linked_middle : Linked d none (l ++ p :: r) none ↔
    Linked d none l (some p) ∧ d p = ⟨l.getLast?, r.head?⟩ ∧ Linked d (some p) r none := by
  rw [linked_append, Linked, Option.or_none, Option.or_none, Option.or_none, List.head?_cons]

/-- Writes elsewhere leave a chain as it is. -/
theorem Linked.congr (linked : Linked d before l after) (same : ∀ p ∈ l, d' p = d p) :
    Linked d' before l after := by
  induction l generalizing before with
  | nil => trivial
  | cons p l ih =>
    refine ⟨(same p (List.mem_cons_self ..)).trans linked.1, ih linked.2 fun q member => ?_⟩
    exact same q (List.mem_cons_of_mem _ member)

theorem Linked.alone (isolated : d p = loose) : Linked d none [p] none := ⟨isolated, trivial⟩

theorem Linked.head (linked : Linked d none (p :: l) none) : d p = ⟨none, l.head?⟩ := by
  rw [linked.1, Option.or_none]

/-- Where an element lies in its chain can be read off its links. -/
theorem Linked.at (linked : Linked d none (l ++ p :: r) none) : d p = ⟨l.getLast?, r.head?⟩ :=
  (linked_middle.mp linked).2.1

theorem Linked.next_mem (linked : Linked d none l none) (member : p ∈ l)
    (next : (d p).next = some q) : q ∈ l := by
  obtain ⟨a, b, rfl⟩ := List.append_of_mem member
  rw [linked.at] at next
  exact List.mem_append_right _ (List.mem_cons_of_mem _ (List.mem_of_head? next))

/-- What the next links hand on from its head holds of a whole chain. -/
theorem Linked.walk {good : P → Prop} (linked : Linked d before (p :: l) none)
    (next : ∀ q r, good q → (d q).next = some r → good r) (first : good p) :
    ∀ q ∈ p :: l, good q := by
  induction l generalizing before p with
  | nil =>
    intro q member
    rwa [List.mem_singleton.mp member]
  | cons r l ih =>
    have link : d p = ⟨before, some r⟩ := linked.1
    have second := next p r first (by rw [link])
    intro q member
    rcases List.mem_cons.mp member with rfl | member
    · exact first
    · exact ih linked.2 second q member

/-- What stands before an element of a chain is the same in every chain it is on. -/
theorem Linked.before_eq (first : Linked d none (l ++ p :: r) none)
    (second : Linked d none (l' ++ p :: r') none) : l = l' := by
  induction l using List.reverseRecOn generalizing l' p r r' with
  | nil =>
    have same : none = l'.getLast? :=
      congrArg Link.prev (first.at.symm.trans second.at)
    exact (List.getLast?_eq_none_iff.mp same.symm).symm
  | append_singleton l q ih =>
    have same : some q = l'.getLast? := by
      have links := congrArg Link.prev (first.at.symm.trans second.at)
      rwa [List.getLast?_concat] at links
    obtain ⟨k, rfl⟩ := List.getLast?_eq_some_iff.mp same.symm
    rw [List.append_assoc] at first second
    rw [ih first second]

/-- What stands after an element of a chain is the same in every chain it is on. -/
theorem Linked.after_eq (first : Linked d none (l ++ p :: r) none)
    (second : Linked d none (l' ++ p :: r') none) : r = r' := by
  induction r generalizing l l' p r' with
  | nil =>
    have same : none = r'.head? := congrArg Link.next (first.at.symm.trans second.at)
    exact (List.head?_eq_none_iff.mp same.symm).symm
  | cons q r ih =>
    have same : some q = r'.head? := congrArg Link.next (first.at.symm.trans second.at)
    obtain ⟨k, rfl⟩ := List.head?_eq_some_iff.mp same.symm
    rw [List.append_cons] at first second
    rw [ih first second]

/-- Two chains that share an element are one. -/
theorem Linked.eq_of_mem (first : Linked d none l none) (second : Linked d none r none)
    (inFirst : p ∈ l) (inSecond : p ∈ r) : l = r := by
  obtain ⟨a, b, rfl⟩ := List.append_of_mem inFirst
  obtain ⟨a', b', rfl⟩ := List.append_of_mem inSecond
  rw [first.before_eq second, first.after_eq second]

/-- No element is on a chain twice. -/
theorem Linked.nodup (linked : Linked d none l none) : l.Nodup := by
  have tails : ∀ r k, l = k ++ r → r.Nodup := by
    intro r
    induction r with
    | nil => exact fun _ _ => List.nodup_nil
    | cons p r ih =>
      intro k same
      apply List.nodup_cons.mpr
      constructor
      · intro again
        obtain ⟨s, t, rfl⟩ := List.append_of_mem again
        have later : l = (k ++ p :: s) ++ p :: t := by rw [same, List.append_assoc, List.cons_append]
        have lengths := congrArg List.length ((same ▸ linked).before_eq (later ▸ linked))
        rw [List.length_append, List.length_cons] at lengths
        omega
      · exact ih (k ++ [p]) (by rw [same, List.append_assoc, List.singleton_append])
  exact tails l [] rfl

/-- Two writes join two chains. -/
theorem Linked.join (left : Linked d none (l ++ [q]) none) (right : Linked d none (p :: r) none)
    (apart : (l ++ q :: p :: r).Nodup) (atLast : d' q = { d q with next := some p })
    (atHead : d' p = { d p with prev := some q }) (frame : ∀ x, x ≠ q → x ≠ p → d' x = d x) :
    Linked d' none (l ++ q :: p :: r) none := by
  rw [List.append_cons] at apart ⊢
  obtain ⟨leftApart, rightApart, between⟩ := List.nodup_append.mp apart
  rw [List.nodup_append] at leftApart
  rw [List.nodup_cons] at rightApart
  apply linked_append.mpr
  constructor
  · rw [linked_append] at left ⊢
    constructor
    · refine left.1.congr fun x member => frame x ?_ ?_
      · exact fun same => leftApart.2.2 x member q (List.mem_singleton_self q) same
      · exact between x (List.mem_append_left _ member) p List.mem_cons_self
    · exact ⟨by rw [atLast, left.2.1]; rfl, trivial⟩
  · rw [List.getLast?_concat, Option.some_or]
    constructor
    · rw [atHead, right.1]
    · refine right.2.congr fun x member => frame x ?_ ?_
      · intro same
        exact between q (List.mem_append_right _ (List.mem_singleton_self q)) x
          (List.mem_cons_of_mem _ member) same.symm
      · exact fun same => rightApart.1 (same ▸ member)

/-- The heap holds the given chains, and all other elements are alone. -/
structure Chains (d : P → Link P) (chains : List (List P)) : Prop where
  linked : ∀ c ∈ chains, Linked d none c none
  distinct : chains.flatten.Nodup
  isolated : ∀ p ∉ chains.flatten, d p = loose

section chains
variable {chains chains' rest : List (List P)} {p : P}

theorem Chains.perm (whole : Chains d chains) (perm : chains.Perm chains') :
    Chains d chains' where
  linked c member := whole.linked c (perm.mem_iff.mpr member)
  distinct := perm.flatten.nodup_iff.mp whole.distinct
  isolated p outside := whole.isolated p fun member => outside (perm.flatten.mem_iff.mp member)

theorem Chains.nil (isolated : ∀ p, d p = loose) : Chains d [] :=
  ⟨fun _ member => absurd member List.not_mem_nil, List.nodup_nil, fun p _ => isolated p⟩

@[simp] theorem chains_nil : Chains d ([] :: rest) ↔ Chains d rest := by
  constructor
  · rintro ⟨linked, distinct, isolated⟩
    exact ⟨(List.forall_mem_cons.mp linked).2, distinct, isolated⟩
  · rintro ⟨linked, distinct, isolated⟩
    exact ⟨List.forall_mem_cons.mpr ⟨trivial, linked⟩, distinct, isolated⟩

/-- An element that is alone is a chain of its own. -/
theorem Chains.alone (whole : Chains d rest) (fresh : p ∉ rest.flatten) :
    Chains d ([p] :: rest) where
  linked := List.forall_mem_cons.mpr ⟨.alone (whole.isolated p fresh), whole.linked⟩
  distinct := List.nodup_cons.mpr ⟨fresh, whole.distinct⟩
  isolated q outside := whole.isolated q fun member => outside (List.mem_cons_of_mem _ member)

/-- A chain takes in an element that was alone. -/
theorem Chains.grow (whole : Chains d (l :: rest)) (linked : Linked d' none r none)
    (perm : r.Perm (p :: l)) (fresh : p ∉ l ++ rest.flatten) (frame : ∀ q ∉ r, d' q = d q) :
    Chains d' (r :: rest) where
  linked := by
    have parts := List.nodup_append.mp whole.distinct
    refine List.forall_mem_cons.mpr ⟨linked, fun c member => ?_⟩
    refine ((List.forall_mem_cons.mp whole.linked).2 c member).congr fun q inside => ?_
    have inRest := List.mem_flatten_of_mem member inside
    refine frame q fun here => ?_
    rcases List.mem_cons.mp (perm.mem_iff.mp here) with rfl | old
    · exact fresh (List.mem_append_right _ inRest)
    · exact parts.2.2 q old q inRest rfl
  distinct := by
    have perm' : ((r :: rest).flatten).Perm (p :: (l ++ rest.flatten)) :=
      perm.append_right rest.flatten
    exact perm'.nodup_iff.mpr (List.nodup_cons.mpr ⟨fresh, whole.distinct⟩)
  isolated q outside := by
    rw [List.flatten_cons, List.mem_append, not_or, perm.mem_iff, List.mem_cons, not_or] at outside
    rw [frame q (by rw [perm.mem_iff, List.mem_cons, not_or]; exact outside.1)]
    refine whole.isolated q ?_
    rw [List.flatten_cons, List.mem_append, not_or]
    exact ⟨outside.1.2, outside.2⟩

end chains

/-- What a singly linked list holds, read from its first element. -/
def Path (next : P → Option P) : Option P → List P → Prop
  | first, [] => first = none
  | first, p :: l => first = some p ∧ Path next (next p) l

variable {next next' : P → Option P} {first : Option P}

theorem Path.nil (path : Path next none l) : l = [] := by
  cases l with
  | nil => rfl
  | cons p l => exact absurd path.1 (by simp)

theorem Path.cons (path : Path next (some p) l) : ∃ r, l = p :: r ∧ Path next (next p) r := by
  cases l with
  | nil => exact absurd path (Option.some_ne_none p)
  | cons q r =>
    obtain ⟨same, rest⟩ := path
    cases same
    exact ⟨r, rfl, rest⟩

/-- Writes to the links of other elements leave a list as it is. -/
theorem Path.congr (path : Path next first l) (same : ∀ p ∈ l, next' p = next p) :
    Path next' first l := by
  induction l generalizing first with
  | nil => exact path
  | cons p l ih =>
    obtain ⟨begins, rest⟩ := path
    refine ⟨begins, ?_⟩
    rw [same p List.mem_cons_self]
    exact ih rest fun q member => same q (List.mem_cons_of_mem _ member)

variable [DecidableEq P]

def setPrev (p : Option P) (value : Option P) (d : P → Link P) : P → Link P :=
  match p with
  | none => d
  | some p => Function.update d p { d p with prev := value }

def setNext (p : Option P) (value : Option P) (d : P → Link P) : P → Link P :=
  match p with
  | none => d
  | some p => Function.update d p { d p with next := value }

theorem setPrev_apart (apart : some q ≠ p) : setPrev p value d q = d q := by
  cases p with
  | none => rfl
  | some p => exact Function.update_of_ne (fun same => apart (congrArg some same)) _ _

theorem setNext_apart (apart : some q ≠ p) : setNext p value d q = d q := by
  cases p with
  | none => rfl
  | some p => exact Function.update_of_ne (fun same => apart (congrArg some same)) _ _

theorem Linked.setPrev_head (linked : Linked d before l after) (distinct : l.Nodup) :
    Linked (setPrev l.head? value d) value l after := by
  cases l with
  | nil => trivial
  | cons p l =>
    rw [List.nodup_cons] at distinct
    refine ⟨?_, linked.2.congr fun q member => ?_⟩
    · simp only [List.head?_cons, setPrev, Function.update_self]
      rw [linked.1]
    · apply setPrev_apart
      rintro same
      exact distinct.1 (Option.some.inj same ▸ member)

theorem Linked.setNext_last (linked : Linked d before l after) (distinct : l.Nodup) :
    Linked (setNext l.getLast? value d) before l value := by
  rcases List.eq_nil_or_concat l with rfl | ⟨l, p, rfl⟩
  · trivial
  · rw [List.concat_eq_append, linked_append] at linked
    rw [List.concat_eq_append, List.nodup_append] at distinct
    rw [List.concat_eq_append, List.getLast?_concat, linked_append]
    have apart : ∀ q ∈ l, some q ≠ some p := by
      intro q member same
      exact distinct.2.2 q member p (List.mem_singleton_self p) (Option.some.inj same)
    refine ⟨linked.1.congr fun q member => setNext_apart (apart q member), ?_, trivial⟩
    simp only [setNext, Function.update_self]
    rw [linked.2.1]
    rfl

end MoonInWater.Chain
