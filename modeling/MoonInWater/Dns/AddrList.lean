import MoonInWater.Common.DList
import MoonInWater.Dns.Model
import MoonInWater.Lib.Fuel

/-! The address lists of moon_dns.c in memory: merge_addrs, which joins the answers of the
two lookups of a domain, the references to them and what a user reads. -/
namespace MoonInWater.Dns.AddrList
open Chain DList Fuel
open RingBuffer (TimeVal)

/-- What is linked on the list of a dns_addrs_s: its ends and the addr_elem_s between them. -/
inductive Node (A P : Type) where
  | head (addrs : A)
  | tail (addrs : A)
  | elem (p : P)
deriving DecidableEq

/-- The memory of the lists and of their elements. -/
structure Heap (A P : Type) where
  links : Node A P → Link (Node A P)
  n : A → Int
  tv : A → TimeVal
  refNum : A → Int
  freed : A → Bool
  freedElem : P → Bool

/-- What dns_domain_s has of lists. -/
structure DomainAddrs (A : Type) where
  status : Int
  pAddrs : Option A
  pNewAddrs : Option A

section
variable {N : Type} [DecidableEq N]

/-- The elements between `headB` and `tailB` go in front of `tailA`. -/
def spliceLinks (tailA headB tailB : N) (d : N → Link N) : Option (N → Link N) :=
  let pElemHead := (d headB).next
  let pElemTail := (d tailB).prev
  let d := (dlistDel headB d).1
  let d := (dlistDel tailB d).1
  let d := dlistAppend (some headB) tailB d
  let pElem := (d tailA).prev
  let d := (dlistDel tailA d).1
  match pElem, pElemHead, pElemTail with
  | none, _, some q => some (dlistInsert (some tailA) q d)
  | some e, some p, some q => some (dlistInsert (some tailA) q (dlistAppend (some e) p d))
  | _, _, _ => none

variable {d : N → Link N} {k m : List N} {t u v : N}

/-- A chain between two ends is taken out, and its ends are linked to one another. -/
theorem emptied_linked (linked : Linked d none (u :: (m ++ [v])) none) :
    let d' := dlistAppend (some u) v (dlistDel v (dlistDel u d).1).1
    Linked d' none m none ∧ Linked d' none [u, v] none ∧ ∀ x ∉ u :: (m ++ [v]), d' x = d x := by
  intro d'
  have distinct := linked.nodup
  obtain ⟨outside, inside⟩ := List.nodup_cons.mp distinct
  have ends : u ≠ v := by
    intro same
    exact outside (same ▸ List.mem_append_right _ (List.mem_singleton_self _))
  obtain ⟨_, linked₁, alone₁, frame₁⟩ :=
    dlistDel_linked (show Linked d none ([] ++ u :: (m ++ [v])) none from linked) distinct
  obtain ⟨_, linked₂, alone₂, frame₂⟩ := dlistDel_linked (r := []) linked₁ inside
  have alone₃ : (dlistDel v (dlistDel u d).1).1 u = loose := by
    rw [frame₂ u outside, alone₁]
  have fresh : v ∉ [u] := by
    intro member
    exact ends (List.mem_singleton.mp member).symm
  obtain ⟨linked₃, frame₃⟩ :=
    dlistAppend_linked (.alone alone₃) alone₂ (List.nodup_singleton u) fresh
  rw [List.append_nil] at linked₂
  have between : ∀ x ∈ m, x ∉ [u, v] := by
    intro x member here
    rcases List.mem_cons.mp here with rfl | here
    · exact outside (List.mem_append_left _ member)
    · have last := List.mem_singleton.mp here
      exact (List.nodup_append.mp inside).2.2 x member v (List.mem_singleton_self v) last
  constructor
  · exact linked₂.congr fun x member => frame₃ x (between x member)
  constructor
  · exact linked₃
  · intro x other
    have away : x ∉ m ++ [v] := fun member => other (List.mem_cons_of_mem _ member)
    have ends' : x ∉ [u, v] := by
      intro member
      rcases List.mem_cons.mp member with rfl | member
      · exact other List.mem_cons_self
      · exact away (List.mem_append_right _ member)
    calc d' x = (dlistDel v (dlistDel u d).1).1 x := frame₃ x ends'
      _ = (dlistDel u d).1 x := frame₂ x away
      _ = d x := frame₁ x other

/-- A chain is put in front of the last element of another one. -/
theorem spliced_linked (linked : Linked d none (k ++ [e] ++ [t]) none)
    (right : Linked d none (p :: m) none) (last : (p :: m).getLast? = some q)
    (apart : ∀ x ∈ k ++ [e] ++ [t], x ∉ p :: m) :
    let d' := dlistInsert (some t) q (dlistAppend (some e) p (dlistDel t d).1)
    Linked d' none (k ++ [e] ++ p :: m ++ [t]) none ∧
      ∀ x ∉ k ++ [e] ++ [t], x ∉ p :: m → d' x = d x := by
  intro d'
  have distinct := linked.nodup
  have distinct' := right.nodup
  obtain ⟨_, linked₁, alone₁, frame₁⟩ := dlistDel_linked (r := []) linked distinct
  rw [List.append_nil] at linked₁
  obtain ⟨left, _, between⟩ := List.nodup_append.mp distinct
  have right₁ : Linked (dlistDel t d).1 none (p :: m) none := by
    apply right.congr
    intro x member
    exact frame₁ x fun here => apart x here member
  have whole : (k ++ e :: p :: m).Nodup := by
    rw [List.append_cons]
    apply List.nodup_append.mpr
    refine ⟨left, distinct', fun x member y member' same => ?_⟩
    exact apart x (List.mem_append_left _ member) (same ▸ member')
  obtain ⟨linked₂, frame₂⟩ := dlistAppend_join linked₁ right₁ whole
  have tail : ∀ x ∈ k ++ e :: p :: m, x ≠ t := by
    intro x member same
    rw [List.append_cons] at member
    rcases List.mem_append.mp member with member | member
    · exact between x member t (List.mem_singleton_self t) same
    · exact apart t (List.mem_append_right _ (List.mem_singleton_self t)) (same ▸ member)
  have atE : e ∈ k ++ e :: p :: m := List.mem_append_right _ List.mem_cons_self
  have atP : p ∈ k ++ e :: p :: m :=
    List.mem_append_right _ (List.mem_cons_of_mem _ List.mem_cons_self)
  have alone₂ : dlistAppend (some e) p (dlistDel t d).1 t = loose := by
    rw [frame₂ t (tail e atE).symm (tail p atP).symm, alone₁]
  obtain ⟨s, split⟩ := List.getLast?_eq_some_iff.mp last
  have shape : k ++ e :: p :: m = (k ++ e :: s) ++ [q] := by
    rw [split, List.append_assoc, List.cons_append]
  rw [shape] at linked₂ tail whole
  have whole' : ((k ++ e :: s) ++ q :: [t]).Nodup := by
    rw [List.append_cons]
    apply List.nodup_append.mpr
    refine ⟨whole, List.nodup_singleton t, fun x member y member' same => ?_⟩
    exact tail x member (same.trans (List.mem_singleton.mp member'))
  obtain ⟨linked₃, frame₃⟩ := dlistInsert_join linked₂ (.alone alone₂) whole'
  have inRight : q ∈ p :: m := List.mem_of_getLast? last
  constructor
  · rw [List.append_cons (k ++ e :: s), ← shape, List.append_cons k e (p :: m)] at linked₃
    exact linked₃
  · intro x other other'
    have first : x ≠ t := by
      intro same
      exact other (same ▸ List.mem_append_right _ (List.mem_singleton_self _))
    have second : x ≠ e := by
      intro same
      subst same
      exact other (List.mem_append_left _ (List.mem_append_right _ (List.mem_singleton_self _)))
    have third : x ≠ p := fun same => other' (same ▸ List.mem_cons_self)
    have fourth : x ≠ q := fun same => other' (same ▸ inRight)
    calc d' x = dlistAppend (some e) p (dlistDel t d).1 x := frame₃ x fourth first
      _ = (dlistDel t d).1 x := frame₂ x second third
      _ = d x := frame₁ x other

theorem spliceLinks_spec {tailA headB tailB : N} (first : Linked d none (k ++ [tailA]) none)
    (second : Linked d none (headB :: (m ++ [tailB])) none) (some₁ : k ≠ []) (some₂ : m ≠ [])
    (apart : ∀ x ∈ k ++ [tailA], x ∉ headB :: (m ++ [tailB])) :
    ∃ d', spliceLinks tailA headB tailB d = some d' ∧ Linked d' none (k ++ m ++ [tailA]) none ∧
      Linked d' none [headB, tailB] none ∧
      ∀ x ∉ k ++ [tailA], x ∉ headB :: (m ++ [tailB]) → d' x = d x := by
  obtain ⟨linked₁, ends₁, frame₁⟩ := emptied_linked second
  obtain ⟨p, r, rfl⟩ := List.exists_cons_of_ne_nil some₂
  have atHead : (d headB).next = some p := congrArg Link.next second.head
  have atTail : (d tailB).prev = (p :: r).getLast? := by
    have link : Linked d none ((headB :: p :: r) ++ tailB :: []) none := second
    exact congrArg Link.prev link.at
  have last : (p :: r).getLast? = some ((p :: r).getLast some₂) :=
    List.getLast?_eq_some_getLast some₂
  obtain ⟨s, e, rfl⟩ := (List.eq_nil_or_concat k).resolve_left some₁
  rw [List.concat_eq_append] at first apart ⊢
  have kept : Linked (dlistAppend (some headB) tailB (dlistDel tailB (dlistDel headB d).1).1)
      none (s ++ [e] ++ [tailA]) none :=
    first.congr fun x member => frame₁ x (apart x member)
  have above : (dlistAppend (some headB) tailB (dlistDel tailB (dlistDel headB d).1).1
      tailA).prev = some e := by
    have link := congrArg Link.prev kept.at
    rwa [List.getLast?_concat] at link
  have away : ∀ x ∈ s ++ [e] ++ [tailA], x ∉ p :: r := by
    intro x member here
    exact apart x member (List.mem_cons_of_mem _ (List.mem_append_left _ here))
  obtain ⟨linked₂, frame₂⟩ := spliced_linked kept linked₁ last away
  refine ⟨_, ?_, linked₂, ?_, ?_⟩
  · simp only [spliceLinks, atHead, atTail, last, above]
  · apply ends₁.congr
    intro x member
    have distinct := second.nodup
    rw [List.nodup_cons, List.nodup_append] at distinct
    have inSecond : x ∈ headB :: (p :: r ++ [tailB]) := by
      rcases List.mem_cons.mp member with rfl | member
      · exact List.mem_cons_self
      · exact List.mem_cons_of_mem _ (List.mem_append_right _ member)
    apply frame₂ x fun here => apart x here inSecond
    intro here
    rcases List.mem_cons.mp member with rfl | member
    · exact distinct.1 (List.mem_append_left _ here)
    · exact distinct.2.2.2 x here x member rfl
  · intro x other other'
    rw [frame₂ x other fun here => other' (List.mem_cons_of_mem _ (List.mem_append_left _ here))]
    exact frame₁ x other'

end

variable {A P : Type}

/-- The list from p_head to p_tail. -/
def chainOf (a : A) (l : List P) : List (Node A P) := .head a :: (l.map .elem ++ [.tail a])

/-- The elements of `a` are linked in both directions between its ends, and counted. -/
structure WellFormed (h : Heap A P) (a : A) (l : List P) : Prop where
  linked : Linked h.links none (chainOf a l) none
  n : h.n a = l.length

/-! ## Traversals -/

section
variable [DecidableEq A] [DecidableEq P]

def getAddrsNext (h : Heap A P) (a : A) (pElem : Option (Node A P)) : Option (Node A P) :=
  let next := match pElem with
    | some p => (h.links p).next
    | none => (h.links (.head a)).next
  if next ≠ some (.tail a) then next else none

def getAddrsPrev (h : Heap A P) (a : A) (pElem : Option (Node A P)) : Option (Node A P) :=
  let prev := match pElem with
    | some p => (h.links p).prev
    | none => (h.links (.tail a)).prev
  if prev ≠ some (.head a) then prev else none

end

/-- What a user reads who asks for one element after the other until there is none. -/
def traverse {N : Type} (get : Option N → Option N) : Nat → Option N → Option (List N)
  | 0, _ => none
  | fuel + 1, pElem =>
    match get pElem with
    | none => some []
    | some p => (traverse get fuel (some p)).map (p :: ·)

section
variable [DecidableEq A] [DecidableEq P] {h : Heap A P} {a : A} {l : List P}

theorem traverse_step {N : Type} {get : Option N → Option N} {p : N} {pElem : Option N}
    {r : List N} (next : get pElem = some p)
    (rest : Returns (fun fuel => traverse get fuel (some p)) r) :
    Returns (fun fuel => traverse get fuel pElem) (p :: r) := by
  apply Returns.succ (g := fun fuel => (traverse get fuel (some p)).map (p :: ·))
  · intro fuel
    rw [traverse, next]
  · exact rest.map _

theorem traverse_end {N : Type} {get : Option N → Option N} {pElem : Option N}
    (next : get pElem = none) : Returns (fun fuel => traverse get fuel pElem) [] := by
  apply Returns.of_add 1
  intro k
  rw [traverse, next]

theorem traverse_congr {N : Type} {get : Option N → Option N} {p q : Option N}
    (same : get p = get q) (fuel : Nat) : traverse get fuel p = traverse get fuel q := by
  cases fuel with
  | zero => rfl
  | succ fuel => rw [traverse, traverse, same]

theorem forward_from (formed : WellFormed h a l) {m : List P} {k : List (Node A P)}
    {x : Node A P} (shape : chainOf a l = k ++ x :: (m.map .elem ++ [.tail a])) :
    Returns (fun fuel => traverse (getAddrsNext h a) fuel (some x)) (m.map .elem) := by
  have link := congrArg Link.next (shape ▸ formed.linked : Linked h.links none _ none).at
  induction m generalizing k x with
  | nil =>
    apply traverse_end
    simp [getAddrsNext, link]
  | cons p m ih =>
    have next : chainOf a l = (k ++ [x]) ++ .elem p :: (m.map .elem ++ [.tail a]) := by
      rw [shape, List.append_assoc]
      rfl
    apply traverse_step
    · simp [getAddrsNext, link]
    · exact ih next (congrArg Link.next (next ▸ formed.linked : Linked h.links none _ none).at)

theorem backward_from (formed : WellFormed h a l) {m : List P} {r : List (Node A P)}
    {x : Node A P} (shape : chainOf a l = (.head a :: m.map .elem) ++ x :: r) :
    Returns (fun fuel => traverse (getAddrsPrev h a) fuel (some x)) (m.map .elem).reverse := by
  have link := congrArg Link.prev (shape ▸ formed.linked : Linked h.links none _ none).at
  induction m using List.reverseRecOn generalizing x r with
  | nil =>
    apply traverse_end
    simp [getAddrsPrev, link]
  | append_singleton m p ih =>
    have before : chainOf a l = (.head a :: m.map .elem) ++ .elem p :: (x :: r) := by
      rw [shape, List.map_append, ← List.cons_append, List.append_assoc]
      rfl
    rw [List.map_append, List.reverse_append]
    apply traverse_step
    · rw [List.map_append, ← List.cons_append] at link
      have last : (Node.head a :: m.map .elem ++ [Node.elem p]).getLast? = some (.elem p) :=
        List.getLast?_concat
      have prev : (h.links x).prev = some (.elem p) := Eq.trans link last
      simp [getAddrsPrev, prev]
    · exact ih before (congrArg Link.prev (before ▸ formed.linked : Linked h.links none _ none).at)

/-- The forward traversal gives the elements of a list in their order. -/
theorem WellFormed.forward (formed : WellFormed h a l) :
    Returns (fun fuel => traverse (getAddrsNext h a) fuel none) (l.map .elem) := by
  have start : getAddrsNext h a none = getAddrsNext h a (some (.head a)) := rfl
  simp only [traverse_congr start]
  exact forward_from (k := []) formed rfl

/-- The backward traversal gives the elements of a list from the last to the first. -/
theorem WellFormed.backward (formed : WellFormed h a l) :
    Returns (fun fuel => traverse (getAddrsPrev h a) fuel none) (l.map .elem).reverse := by
  have start : getAddrsPrev h a none = getAddrsPrev h a (some (.tail a)) := rfl
  simp only [traverse_congr start]
  exact backward_from (r := []) formed rfl

end

/-! ## References -/

section
variable [DecidableEq A]

def addrsRefInc (pAddrs : Option A) (h : Heap A P) : Heap A P :=
  match pAddrs with
  | none => h
  | some a => { h with refNum := Function.update h.refNum a (h.refNum a + 1) }

variable [DecidableEq P]

/-- The loop of addrs_ref_dec. -/
def freeElems (a : A) : Nat → Option (Node A P) → Heap A P → Option (Heap A P)
  | 0, _, _ => none
  | fuel + 1, pElem, h =>
    if pElem = some (.tail a) then some h
    else
      match pElem with
      | some (.elem p) =>
        freeElems a fuel (dlistDel (.elem p) h.links).2 { h with
          links := (dlistDel (.elem p) h.links).1
          freedElem := Function.update h.freedElem p true }
      | _ => none

def addrsRefDec (fuel : Nat) (pAddrs : Option A) (h : Heap A P) : Option (Heap A P) :=
  match pAddrs with
  | none => some h
  | some a =>
    let refNum := h.refNum a - 1
    let h := { h with refNum := Function.update h.refNum a refNum }
    if refNum = 0 then
      (freeElems a fuel (h.links (.head a)).next h).map fun h =>
        { h with freed := Function.update h.freed a true }
    else some h

/-- The result of merge_addrs, with what it has written. -/
structure Merge (A P : Type) where
  heap : Heap A P
  domain : DomainAddrs A
  pAddrsDel : Option A

/-- The part of merge_addrs that depends on which of the two lists there are; it gives
p_new_addrs. -/
def mergeNew (pNewAddrs pAddrs : Option A) (h : Heap A P) : Option (Heap A P × Option A) :=
  match pAddrs, pNewAddrs with
  | some b, some a =>
    (spliceLinks (.tail a) (.head b) (.tail b) h.links).map fun links =>
      ({ h with
        links := links
        n := Function.update (Function.update h.n b 0) a (h.n b + h.n a) }, some a)
  | some b, none => some (addrsRefInc (some b) h, some b)
  | none, pNewAddrs => some (h, pNewAddrs)

def mergeAddrs (now : TimeVal) (domain : DomainAddrs A) (pAddrs : Option A) (h : Heap A P) :
    Option (Merge A P) :=
  (mergeNew domain.pNewAddrs pAddrs h).map fun new =>
    { heap := match new.2 with
        | none => new.1
        | some a => { new.1 with tv := Function.update new.1.tv a now }
      domain := { domain with pAddrs := new.2, pNewAddrs := none }
      pAddrsDel := domain.pAddrs }

/-- The listeners of the queries keep so many references each; then notice_user drops the
one it was given. -/
def noticeUser (fuel : Nat) (queries : List Nat) (pAddrs : Option A) (h : Heap A P) :
    Option (Heap A P) :=
  addrsRefDec fuel pAddrs (queries.foldl (fun h taken => (addrsRefInc pAddrs)^[taken] h) h)

/-- The domains of dns_private_s: the one that is called back, the others on the age list
from the oldest on, and those that are looked up. -/
structure Domains (A : Type) where
  domain : DomainAddrs A
  age : List (DomainAddrs A)
  off : List (DomainAddrs A)

/-- The end of both lookups puts a domain with addresses at the end of the age list. What
leaves a list that is too long is freed, with its p_addrs, unless it is being looked up. -/
def putBack (ds : Domains A) : Domains A × Option A :=
  match ds.age with
  | [] => (ds, none)
  | old :: age =>
    if (ds.age.length + 1 : Int) > dnsCacheNum then
      if old.status = domainQuery2 then ({ ds with age := age }, old.pAddrs)
      else ({ ds with
        age := age
        off := { old with status := old.status - domainQuery2 } :: ds.off }, none)
    else (ds, none)

/-- What domain_callback does to lists, for `pAddrs` from save_addrs. -/
def domainCallback (now : TimeVal) (queries : List Nat) (pAddrs : Option A) (fuel : Nat)
    (ds : Domains A) (h : Heap A P) : Option (Heap A P × Domains A) :=
  let domain := ds.domain
  if domain.status = domainQuerying ∨ domain.status = domainNewQuerying then
    (addrsRefDec fuel pAddrs (addrsRefInc pAddrs h)).map fun h =>
      (h, { ds with domain := { domain with pNewAddrs := pAddrs, status := domain.status + 1 } })
  else if domain.status = domainNewQuery1 ∨ domain.status = domainQuery1 then
    (mergeAddrs now { domain with status := domainQuery2 } pAddrs h).bind fun merge =>
      let ds := { ds with domain := merge.domain }
      let put := if merge.domain.pAddrs = none then (ds, none) else putBack ds
      let pAddrsQuery := if queries = [] then none else merge.domain.pAddrs
      ((((noticeUser fuel queries pAddrsQuery (addrsRefInc pAddrsQuery merge.heap)).bind
        (addrsRefDec fuel put.2)).bind
        (addrsRefDec fuel merge.pAddrsDel)).bind
        (addrsRefDec fuel pAddrs)).map fun h => (h, put.1)
  else (addrsRefDec fuel pAddrs h).map fun h => (h, ds)

end

end MoonInWater.Dns.AddrList
