import Mathlib.Data.List.DropRight
import MoonInWater.Lib.Follows
import MoonInWater.Lib.Fuel
import MoonInWater.Sync.UpdateQueue

/-! The count and the bound of the queue of update packets. The list is kept right by all of its
operations; packets_num is zero for ever, so that only an empty queue is counted. -/
namespace MoonInWater.Sync.QueueCount
open Chain DList Fuel Machine UpdateQueue
variable {P : Type}

/-- The packets linked from up_head to up_tail. -/
structure Holds (q : PacketQueue P) (l : List P) : Prop where
  linked : Linked q.links none l none
  head : q.upHead = l.head?
  tail : q.upTail = l.getLast?

def Counted (q : PacketQueue P) : Prop := ∃ l, Holds q l ∧ q.packetsNum = l.length

/-- Versions ascend from the tail to the head. -/
def Ascending (q : PacketQueue P) (l : List P) : Prop :=
  l.Pairwise fun p r => (q.packets r).version ≤ (q.packets p).version

/-- What is called on a queue. A packet put in is a new one, and `behind` is the int behind
packets_num then. -/
inductive Op (P : Type) where
  | insertNewPacket (behind : Int) (uppac : P) (packet : UpdatePacket)
  | getTailPacket
  | delOldPacket (oldValue : Int)
  | delAllPacket

section
variable [DecidableEq P]

noncomputable def step (op : Op P) (q : PacketQueue P) : Option (PacketQueue P × Option P) :=
  match op with
  | .insertNewPacket behind uppac packet =>
    let links := Function.update q.links uppac loose
    let packets := Function.update q.packets uppac packet
    UpdateQueue.insertNewPacket behind uppac { q with links := links, packets := packets }
  | .getTailPacket => UpdateQueue.getTailPacket q
  | .delOldPacket oldValue => limit fun fuel => UpdateQueue.delOldPacket fuel oldValue q
  | .delAllPacket => UpdateQueue.delAllPacket q

end

/-- The new packet is not one of the queue. -/
def Fresh (op : Op P) (q : PacketQueue P) : Prop :=
  match op with
  | .insertNewPacket _ uppac _ => ∀ l, Holds q l → uppac ∉ l
  | _ => True

/-- The packets older than `oldValue` are returned as a list, and the others left. -/
def Splits (q : PacketQueue P) (oldValue : Int) (q' : PacketQueue P) (out : Option P) : Prop :=
  ∀ l, Holds q l → Ascending q l →
    let gone := l.filter fun p => (q.packets p).version < oldValue
    out = gone.head? ∧ Linked q'.links none gone none ∧
      Holds q' (l.filter fun p => oldValue ≤ (q.packets p).version)

/-- What an operation has to do besides the count. -/
def Bounded (op : Op P) (q q' : PacketQueue P) (out : Option P) : Prop :=
  match op with
  | .insertNewPacket _ _ _ => q'.packetsNum < clientMaxVersionNum
  | .delOldPacket oldValue => Splits q oldValue q' out
  | _ => True

/-- The limit, compared with the int behind packets_num, is reached. -/
def full (op : Op P) : Prop :=
  match op with
  | .insertNewPacket behind _ _ => clientMaxVersionNum ≤ behind
  | _ => True

def empty (links : P → Link P) (packets : P → UpdatePacket) : PacketQueue P :=
  ⟨none, none, 0, links, packets⟩

section lists
variable {q : PacketQueue P} {l k : List P} {p : P}

theorem Holds.upTail (holds : Holds q (k ++ [p])) : q.upTail = some p := by
  rw [holds.tail, List.getLast?_concat]

theorem Holds.unique (first : Holds q l) (second : Holds q k) : l = k := by
  cases l with
  | nil =>
    have same : none = k.head? := first.head.symm.trans second.head
    exact (List.head?_eq_none_iff.mp same.symm).symm
  | cons p l =>
    have same : some p = k.head? := first.head.symm.trans second.head
    have member := List.mem_of_head? same.symm
    exact first.linked.eq_of_mem second.linked List.mem_cons_self member

theorem Holds.empty (links : P → Link P) (packets : P → UpdatePacket) :
    Holds (empty links packets) [] := ⟨trivial, rfl, rfl⟩

variable [DecidableEq P]

theorem getTailPacket_nil (holds : Holds q []) : getTailPacket q = (q, none) := by
  rw [getTailPacket, holds.tail]
  rfl

/-- The oldest packet is taken out. -/
theorem getTailPacket_spec (holds : Holds q (k ++ [p])) :
    ∃ q', getTailPacket q = (q', some p) ∧ Holds q' k ∧ q'.packetsNum = q.packetsNum ∧
      q'.packets = q.packets := by
  obtain ⟨_, linked, _⟩ := dlistDel_linked holds.linked holds.linked.nodup
  rw [List.append_nil] at linked
  have before : (q.links p).prev = k.getLast? := congrArg Link.prev holds.linked.at
  cases k using List.reverseRecOn with
  | nil =>
    have result : getTailPacket q = ({ q with upHead := none, upTail := none
                                              links := (dlistDel p q.links).1 }, some p) := by
      simp only [getTailPacket, holds.upTail, before, List.getLast?_nil, if_pos]
    exact ⟨_, result, ⟨trivial, rfl, rfl⟩, rfl, rfl⟩
  | append_singleton k r =>
    have result : getTailPacket q = ({ q with upTail := some r
                                              links := (dlistDel p q.links).1 }, some p) := by
      simp only [getTailPacket, holds.upTail, before, List.getLast?_concat]
      rw [if_neg (Option.some_ne_none r)]
    refine ⟨_, result, ⟨linked, ?_, ?_⟩, rfl, rfl⟩
    · have head := holds.head
      rwa [List.head?_append_of_ne_nil (k ++ [r]) (List.concat_ne_nil r k)] at head
    · exact (List.getLast?_concat ..).symm

/-- A new packet is the head of the queue, and the oldest packet goes at the limit. -/
theorem insertNewPacket_spec (holds : Holds q l) (isolated : q.links p = loose) (fresh : p ∉ l)
    (behind : Int) : ∃ q' out, insertNewPacket behind p q = (q', out) ∧
      Holds q' (if clientMaxVersionNum ≤ behind then (p :: l).dropLast else p :: l) ∧
      q'.packetsNum = q.packetsNum ∧ (out = none ↔ behind < clientMaxVersionNum) := by
  obtain ⟨linked, _⟩ := dlistInsert_linked holds.linked isolated holds.linked.nodup fresh
  let grown := { q with upHead := some p, upTail := (p :: l).getLast?,
                        links := dlistInsert q.upHead p q.links }
  have inserted : Holds grown (p :: l) := by
    refine ⟨?_, rfl, rfl⟩
    rw [← holds.head] at linked
    exact linked
  have result : insertNewPacket behind p q =
      if clientMaxVersionNum ≤ behind then getTailPacket grown else (grown, none) := by
    rw [insertNewPacket]
    cases l with
    | nil => simp [holds.tail, grown]
    | cons r l => simp [holds.tail, grown, List.getLast?_cons_cons]
  rw [result]
  by_cases limited : clientMaxVersionNum ≤ behind
  · rw [if_pos limited, if_pos limited]
    rcases List.eq_nil_or_concat (p :: l) with wrong | ⟨k, r, same⟩
    · exact absurd wrong (List.cons_ne_nil p l)
    · rw [List.concat_eq_append] at same
      rw [same] at inserted ⊢
      obtain ⟨q', taken, left, count, _⟩ := getTailPacket_spec inserted
      rw [List.dropLast_concat]
      refine ⟨q', some r, taken, left, count, ?_⟩
      exact iff_of_false (Option.some_ne_none r) (Int.not_lt.mpr limited)
  · rw [if_neg limited, if_neg limited]
    exact ⟨grown, none, rfl, inserted, rfl, iff_of_true rfl (Int.not_le.mp limited)⟩

/-- The packet is older than `oldValue`. -/
def older (q : PacketQueue P) (oldValue : Int) (p : P) : Bool := (q.packets p).version < oldValue

omit [DecidableEq P] in
/-- The packets that are passed are the old ones at the end. -/
theorem skipOld_spec (linked : Linked q.links none l after) (oldValue : Int) :
    Returns (skipOld q oldValue · l.getLast?) (l.rdropWhile (older q oldValue)).getLast? := by
  induction l using List.reverseRecOn generalizing after with
  | nil =>
    refine .of_eq fun fuel => ?_
    cases fuel <;> rfl
  | append_singleton l p ih =>
    rw [List.getLast?_concat]
    obtain ⟨front, last⟩ := linked_append.mp linked
    have before : (q.links p).prev = l.getLast? := by rw [last.1, Option.or_none]
    by_cases old : (q.packets p).version < oldValue
    · rw [List.rdropWhile_concat_pos (older q oldValue) l p (decide_eq_true old)]
      refine .succ (fun fuel => ?_) (ih front)
      rw [skipOld, if_pos old, before]
    · have kept : ¬ older q oldValue p = true := fun passed => old (of_decide_eq_true passed)
      rw [List.rdropWhile_concat_neg (older q oldValue) l p kept, List.getLast?_concat]
      refine .of_add 1 fun fuel => ?_
      rw [skipOld, if_neg old]

/-- The old packets at the end are cut off. -/
theorem delOldPacket_spec (holds : Holds q l) (oldValue : Int) :
    ∃ q' out, Returns (delOldPacket · oldValue q) (q', out) ∧
      Holds q' (l.rdropWhile (older q oldValue)) ∧ q'.packetsNum = q.packetsNum ∧
      out = (l.rtakeWhile (older q oldValue)).head? ∧
      Linked q'.links none (l.rtakeWhile (older q oldValue)) none := by
  cases whole : q.upTail with
  | none =>
    have nothing : l = [] := List.getLast?_eq_none_iff.mp (holds.tail.symm.trans whole)
    subst nothing
    refine ⟨q, none, .of_eq fun fuel => ?_, holds, rfl, rfl, trivial⟩
    rw [delOldPacket, whole]
  | some last =>
    have skipped := skipOld_spec holds.linked oldValue
    rw [← holds.tail] at skipped
    have parts : l.rdropWhile (older q oldValue) ++ l.rtakeWhile (older q oldValue) = l :=
      List.rdropWhile_append_rtakeWhile
    generalize l.rdropWhile (older q oldValue) = kept at skipped parts ⊢
    generalize l.rtakeWhile (older q oldValue) = gone at parts ⊢
    subst parts
    cases kept using List.reverseRecOn with
    | nil =>
      refine ⟨{ q with upHead := none, upTail := none }, q.upHead, ?_, ⟨trivial, rfl, rfl⟩, rfl,
        holds.head, holds.linked⟩
      refine skipped.imp fun fuel passed => ?_
      rw [delOldPacket, passed, whole]
      rfl
    | append_singleton k u =>
      rw [List.getLast?_concat] at skipped
      have next : (q.links u).next = gone.head? := by
        have linked := holds.linked
        rw [← List.append_cons] at linked
        exact congrArg Link.next linked.at
      cases gone with
      | nil =>
        rw [List.append_nil] at holds
        have same : { q with upTail := some u } = q := by rw [← holds.upTail]
        refine ⟨q, none, ?_, holds, rfl, rfl, trivial⟩
        refine skipped.imp fun fuel passed => ?_
        rw [delOldPacket, passed, whole]
        simp only [Option.map_some, next, List.head?_nil, same]
      | cons p r =>
        rw [← List.append_cons] at holds
        obtain ⟨front, back⟩ := dlistCut_linked holds.linked
        refine ⟨{ q with upTail := some u, links := dlistCut p q.links }, some p, ?_,
          ⟨front, ?_, ?_⟩, rfl, rfl, back⟩
        · refine skipped.imp fun fuel passed => ?_
          rw [delOldPacket, passed, whole]
          simp only [Option.map_some, next, List.head?_cons]
        · have head := holds.head
          rwa [List.append_cons, List.head?_append_of_ne_nil _ (List.concat_ne_nil u k)] at head
        · exact (List.getLast?_concat ..).symm

omit [DecidableEq P] in
/-- In an ascending queue the old packets are all at the end. -/
theorem Ascending.split (ascending : Ascending q l) (oldValue : Int) :
    l.rtakeWhile (older q oldValue) = l.filter (older q oldValue) ∧
      l.rdropWhile (older q oldValue) = l.filter fun p => oldValue ≤ (q.packets p).version := by
  induction l using List.reverseRecOn with
  | nil => exact ⟨rfl, rfl⟩
  | append_singleton l p ih =>
    obtain ⟨front, _, least⟩ := List.pairwise_append.mp ascending
    obtain ⟨taken, dropped⟩ := ih front
    by_cases old : (q.packets p).version < oldValue
    · have passed : older q oldValue p = true := decide_eq_true old
      rw [List.rtakeWhile_concat_pos _ l p passed, List.rdropWhile_concat_pos _ l p passed,
        List.filter_append, List.filter_append, taken, dropped]
      constructor
      · rw [List.filter_singleton, passed, Bool.cond_true]
      · rw [List.filter_singleton, decide_eq_false (Int.not_le.mpr old), Bool.cond_false,
          List.append_nil]
    · have kept : older q oldValue p = false := decide_eq_false old
      have newer : ∀ r ∈ l ++ [p], oldValue ≤ (q.packets r).version := by
        intro r member
        rcases List.mem_append.mp member with before | last
        · have order := least r before p (List.mem_singleton_self p)
          omega
        · rw [List.mem_singleton.mp last]
          omega
      rw [List.rtakeWhile_concat_neg _ l p (Bool.not_eq_true _ ▸ kept),
        List.rdropWhile_concat_neg _ l p (Bool.not_eq_true _ ▸ kept)]
      constructor
      · symm
        apply List.filter_eq_nil_iff.mpr
        intro r member passed
        exact Int.not_lt.mpr (newer r member) (of_decide_eq_true passed)
      · symm
        apply List.filter_eq_self.mpr
        intro r member
        exact decide_eq_true (newer r member)

/-- What an operation leaves of the queue. -/
def leaves (op : Op P) (q : PacketQueue P) (l : List P) : List P :=
  match op with
  | .insertNewPacket behind uppac _ =>
    if clientMaxVersionNum ≤ behind then (uppac :: l).dropLast else uppac :: l
  | .getTailPacket => l.dropLast
  | .delOldPacket oldValue => l.rdropWhile (older q oldValue)
  | .delAllPacket => []

/-- Each operation leaves a list, del_old_packet the right one, and none counts. -/
theorem step_spec (holds : Holds q l) (zero : q.packetsNum = 0) (op : Op P) (fresh : Fresh op q) :
    ∃ q' out, step op q = some (q', out) ∧ Holds q' (leaves op q l) ∧ q'.packetsNum = 0 ∧
      ∀ oldValue, op = .delOldPacket oldValue → Splits q oldValue q' out := by
  cases op with
  | insertNewPacket behind uppac packet =>
    have outside := fresh l holds
    let q₁ := { q with links := Function.update q.links uppac loose,
                       packets := Function.update q.packets uppac packet }
    have kept : Holds q₁ l := by
      refine ⟨holds.linked.congr fun p member => ?_, holds.head, holds.tail⟩
      refine Function.update_of_ne ?_ ..
      rintro rfl
      exact outside member
    have isolated : q₁.links uppac = loose := Function.update_self ..
    obtain ⟨q', out, ran, left, count, -⟩ := insertNewPacket_spec kept isolated outside behind
    exact ⟨q', out, congrArg some ran, left, count.trans zero, fun _ wrong => by cases wrong⟩
  | getTailPacket =>
    rcases List.eq_nil_or_concat l with rfl | ⟨k, p, rfl⟩
    · refine ⟨q, none, congrArg some (getTailPacket_nil holds), holds, zero, ?_⟩
      exact fun _ wrong => by cases wrong
    · rw [List.concat_eq_append] at holds
      obtain ⟨q', ran, left, count, _⟩ := getTailPacket_spec holds
      refine ⟨q', some p, congrArg some ran, ?_, count.trans zero, fun _ wrong => by cases wrong⟩
      rw [leaves, List.concat_eq_append, List.dropLast_concat]
      exact left
  | delOldPacket oldValue =>
    obtain ⟨q', out, ran, left, count, first, gone⟩ := delOldPacket_spec holds oldValue
    refine ⟨q', out, ran.limit_eq, left, count.trans zero, ?_⟩
    rintro _ ⟨⟩ k holds' ascending
    cases holds.unique holds'
    obtain ⟨taken, dropped⟩ := ascending.split oldValue
    rw [taken] at first gone
    rw [dropped] at left
    exact ⟨first, gone, left⟩
  | delAllPacket => exact ⟨_, _, rfl, ⟨trivial, rfl, rfl⟩, rfl, fun _ wrong => by cases wrong⟩

end lists

section runs
variable [DecidableEq P] {links : P → Link P} {packets : P → UpdatePacket} {ops : List (Op P)}

/-- Whatever is counted, the queue stays a list, and del_old_packet splits it as it should. -/
theorem queue_listed (run : Meets step Fresh ops (empty links packets)) :
    Follows step (fun _ (_ : Unit) => ()) (fun op _ q q' out =>
      ∀ oldValue, op = .delOldPacket oldValue → Splits q oldValue q' out)
      (fun q _ => ∃ l, Holds q l) ops (empty links packets) () := by
  let Inv (q : PacketQueue P) (_ : Unit) : Prop := ∃ l, Holds q l ∧ q.packetsNum = 0
  have start : Inv (empty links packets) () := ⟨[], .empty links packets, rfl⟩
  refine follows_of_meets ?_ ?_ start run
  · rintro q - ⟨l, holds, -⟩
    exact ⟨l, holds⟩
  · rintro op q - ⟨l, holds, zero⟩ fresh
    obtain ⟨q', out, ran, left, count, splits⟩ := step_spec holds zero op fresh
    exact ⟨q', out, ran, splits, _, left, count⟩

omit [DecidableEq P] in
theorem leaves_nil_iff {q : PacketQueue P} {op : Op P} : leaves op q [] = [] ↔ full op := by
  cases op with
  | insertNewPacket behind uppac packet => simp [leaves, full]
  | getTailPacket => simp [leaves, full]
  | delOldPacket oldValue => simp [leaves, full]
  | delAllPacket => simp [leaves, full]

/-- The queue keeps its count and its bound exactly in the runs whose every packet is put out
again by the call that put it in. -/
theorem queue_counted_iff (run : Meets step Fresh ops (empty links packets)) :
    Follows step (fun _ (_ : Unit) => ()) (fun op _ => Bounded op) (fun q _ => Counted q) ops
      (empty links packets) () ↔ ∀ op ∈ ops, full op := by
  let Inv (q : PacketQueue P) (_ : Unit) : Prop := Holds q [] ∧ q.packetsNum = 0
  have start : Inv (empty links packets) () := ⟨.empty links packets, rfl⟩
  have kept : Follows step (fun _ (_ : Unit) => ()) (fun op _ => Bounded op)
      (fun q _ => Counted q) ops (empty links packets) () ↔
      Meets step (fun op _ => full op) ops (empty links packets) := by
    refine Meets.follows_iff_meets ?_ ?_ ?_ start run
    · rintro q - ⟨holds, zero⟩
      exact ⟨[], holds, zero⟩
    · rintro op q - ⟨holds, zero⟩ fresh limited
      obtain ⟨q', out, ran, left, count, splits⟩ := step_spec holds zero op fresh
      rw [leaves_nil_iff.mpr limited] at left
      refine ⟨q', out, ran, ?_, left, count⟩
      cases op with
      | insertNewPacket behind uppac packet =>
        change q'.packetsNum < clientMaxVersionNum
        rw [count]
        decide
      | getTailPacket => trivial
      | delOldPacket oldValue => exact splits oldValue rfl
      | delAllPacket => trivial
    · rintro op q - q' out ⟨holds, zero⟩ fresh ran - ⟨l, counted, length⟩
      obtain ⟨_, _, ran', left, count, -⟩ := step_spec holds zero op fresh
      cases ran.symm.trans ran'
      have none : l = [] := by
        rw [count] at length
        exact List.eq_nil_of_length_eq_zero (by omega)
      rw [none] at counted
      exact leaves_nil_iff.mp (left.unique counted)
  constructor
  · intro follows
    exact follows.forall_of_meets (kept.mp follows)
  · intro all
    exact kept.mpr (.of_forall all)

end runs

theorem fresh_first (behind : Int) (uppac : Nat) (packet : UpdatePacket) :
    Fresh (.insertNewPacket behind uppac packet) (empty (fun _ => loose) fun _ => packet) := by
  intro l holds member
  rw [holds.unique (.empty ..)] at member
  exact List.not_mem_nil member

/-- A packet that comes while 64 is behind packets_num leaves the empty queue counted. -/
theorem queue_counted_iff_limited : Follows step (fun _ (_ : Unit) => ()) (fun op _ => Bounded op)
    (fun q _ => Counted q) [.insertNewPacket 64 0 ⟨1, 5⟩, .delOldPacket 6, .getTailPacket]
    (empty (P := Nat) (fun _ => loose) fun _ => ⟨1, 5⟩) () := by
  have run : Meets step Fresh [.insertNewPacket 64 0 ⟨1, 5⟩, .delOldPacket 6, .getTailPacket]
      (empty (P := Nat) (fun _ => loose) fun _ => ⟨1, 5⟩) :=
    ⟨fresh_first 64 0 ⟨1, 5⟩, fun _ _ _ => ⟨trivial, fun _ _ _ => ⟨trivial, fun _ _ _ => trivial⟩⟩⟩
  apply (queue_counted_iff run).mpr
  simp [full, clientMaxVersionNum]

/-- One packet is put into the empty queue while query_status is zero, and it is not counted. -/
theorem insert_not_counted : Meets step Fresh [.insertNewPacket 0 0 ⟨1, 5⟩]
      (empty (P := Nat) (fun _ => loose) fun _ => ⟨1, 5⟩) ∧
    ∃ q, step (.insertNewPacket 0 0 ⟨1, 5⟩) (empty (fun _ => loose) fun _ => ⟨1, 5⟩) =
      some (q, none) ∧ Holds q [0] ∧ q.packetsNum = 0 ∧ ¬ Counted q := by
  have alone : Function.update (fun _ => loose) 0 loose 0 = loose (P := Nat) :=
    Function.update_self ..
  have holds : Holds (P := Nat) ⟨some 0, some 0, 0, Function.update (fun _ => loose) 0 loose,
      Function.update (fun _ => ⟨1, 5⟩) 0 ⟨1, 5⟩⟩ [0] := ⟨.alone alone, rfl, rfl⟩
  refine ⟨⟨fresh_first 0 0 ⟨1, 5⟩, fun _ _ _ => trivial⟩, _, rfl, holds, rfl, ?_⟩
  rintro ⟨l, counted, length⟩
  rw [counted.unique holds] at length
  contradiction

end MoonInWater.Sync.QueueCount
