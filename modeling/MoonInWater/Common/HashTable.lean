import MoonInWater.Avl.OrderedMap
import MoonInWater.Common.DList
import MoonInWater.Lib.CInt
import MoonInWater.Lib.Follows
import MoonInWater.Lib.Fuel

/-! The hash table of moon_common.h: buckets of values that are linked to their heads, each with
a key of fixed size in front. -/
namespace MoonInWater.HashTable
open Chain DList Fuel Machine CInt
open Avl (visit visit_append)
variable {P S : Type}

/-- The characters of a string in front of its NUL. -/
abbrev Key := List Int8

/-- HASH_NUM -/
def hashNum : Nat := 67

/-- HASH_BASE -/
def hashBase : Int := 61

/-- The characters that fit into the key of a hash_key_s with its NUL. -/
def keyRoom : Nat := 255

/-- The elements of the lists: the heads of the buckets and the values. -/
inductive Node (P : Type) where
  | bucket (index : Nat)
  | value (p : P)
deriving DecidableEq

/-- hash_table_s, with the keys in front of the values. -/
structure Table (P : Type) where
  links : Node P → Link (Node P)
  keys : P → Key
  num : Int

/-- A zeroed table. -/
def empty : Table P := ⟨fun _ => loose, fun _ => [], 0⟩

def hashLoop (hash : Nat) : Key → Nat
  | [] => hash
  | c :: key => hashLoop ((u64 (hash * hashBase + c.toInt)).toNat % hashNum) key

def hashFunc (key : Key) : Nat := hashLoop 0 key

/-- The loop of hash_search2 at `p_key`. -/
def searchLoop (t : Table P) (key : Key) : Nat → Option (Node P) → Option (Option P)
  | 0, _ => none
  | _ + 1, none => some none
  | _ + 1, some (.bucket _) => none
  | fuel + 1, some (.value p) =>
    if t.keys p = key then some (some p) else searchLoop t key fuel (t.links (.value p)).next

/-- The loop of hash_traver over one bucket. -/
def traverLoop (func : P → S → S × Int) (t : Table P) :
    Nat → Option (Node P) → S → Option (S × Int)
  | 0, _, _ => none
  | _ + 1, none, s => some (s, 0)
  | _ + 1, some (.bucket _), _ => none
  | fuel + 1, some (.value p), s =>
    let (s, ret) := func p s
    if ret ≠ 0 then some (s, ret) else traverLoop func t fuel (t.links (.value p)).next s

/-- The loop of hash_traver from a bucket on. -/
def traverBuckets (func : P → S → S × Int) (t : Table P) (fuel : Nat) :
    Nat → Nat → S → Option (S × Int)
  | 0, _, s => some (s, 0)
  | rest + 1, i, s => do
    let (s, ret) ← traverLoop func t fuel (t.links (.bucket i)).next s
    if ret ≠ 0 then some (s, ret) else traverBuckets func t fuel rest (i + 1) s

def hashTraver (func : P → S → S × Int) (fuel : Nat) (t : Table P) (s : S) :
    Option (S × Int) := traverBuckets func t fuel hashNum 0 s

variable [DecidableEq P]

def hashSearch2 (fuel : Nat) (key : Key) (data : Option P) (t : Table P) :
    Option (Table P × Option P) := do
  let index := hashFunc key
  match ← searchLoop t key fuel (t.links (.bucket index)).next with
  | some p => some (t, some p)
  | none =>
    match data with
    | none => some (t, none)
    | some p =>
      let t := { t with keys := Function.update t.keys p (key.take keyRoom) }
      some ({ t with links := dlistAppend (some (.bucket index)) (.value p) t.links }, some p)

def hashTableSearch2 (fuel : Nat) (key : Key) (data : Option P) (t : Table P) :
    Option (Table P × Option P) := do
  let (t, ptr) ← hashSearch2 fuel key data t
  some (if ptr ≠ none ∧ ptr = data then { t with num := t.num + 1 } else t, ptr)

/-- The memory that hash_malloc returns. -/
def hashMalloc (data : Option P) (t : Table P) : Table P :=
  match data with
  | none => t
  | some p => { t with
      links := Function.update t.links (.value p) loose
      keys := Function.update t.keys p [] }

/-- hash_table_search; `data` is what hash_malloc returns when `data_len` asks for memory, which
is freed again unless it is the result. -/
def hashTableSearch (fuel : Nat) (key : Key) (data : Option P) (t : Table P) :
    Option (Table P × Option P) :=
  hashTableSearch2 fuel key data (hashMalloc data t)

def hashDel (p : P) (t : Table P) : Table P :=
  { t with links := (dlistDel (.value p) t.links).1 }

def hashTableDel (p : P) (t : Table P) : Table P :=
  hashDel p { t with num := t.num - 1 }

/-- The calls on a table. -/
inductive Op (P : Type) where
  | search2 (key : Key) (data : Option P)
  | search (key : Key) (data : Option P)
  | del (p : P)

def stepFuel (fuel : Nat) : Op P → Table P → Option (Table P × Option P)
  | .search2 key data, t => hashTableSearch2 fuel key data t
  | .search key data, t => hashTableSearch fuel key data t
  | .del p, t => some (hashTableDel p t, none)

/-- A call, whose loops end by themselves. -/
noncomputable def step (op : Op P) (t : Table P) : Option (Table P × Option P) :=
  limit fun fuel => stepFuel fuel op t

/-- What a map from strings holds: its keys with their values. -/
abbrev Map (P : Type) := List (Key × P)

def Map.find (a : Map P) (key : Key) : Option P :=
  (a.find? fun entry => entry.1 = key).map Prod.snd

def Map.search (key : Key) (data : Option P) (a : Map P) : Map P :=
  match a.find key, data with
  | none, some p => (key, p) :: a
  | _, _ => a

def spec : Op P → Map P → Map P
  | .search2 key data, a | .search key data, a => a.search key data
  | .del p, a => a.filter fun entry => entry.2 ≠ p

/-- New values are not in the map, and only values of the map are deleted. -/
def legal : Op P → Map P → Prop
  | .search2 _ data, a | .search _ data, a => ∀ p, data = some p → p ∉ a.map Prod.snd
  | .del p, a => p ∈ a.map Prod.snd

/-- A search returns what the map has under the key, or the value that it inserts. -/
def allowed : Op P → Map P → Table P → Table P → Option P → Prop
  | .search2 key data, a, _, _, out | .search key data, a, _, _, out =>
    out = (a.find key).or data
  | .del _, _, _, _, _ => True

/-- The table is the map: each search finds what is under its key and no other value is there. -/
structure Matches (t : Table P) (a : Map P) : Prop where
  search : ∀ key, Returns (fun fuel => hashTableSearch2 fuel key none t) (t, a.find key)
  unique : (a.map Prod.fst).Nodup
  num : t.num = a.length
  traver : ∃ order, order.Perm (a.map Prod.snd) ∧ order.Nodup ∧
    ∀ (S : Type) (func : P → S → S × Int) (s : S),
      Returns (fun fuel => hashTraver func fuel t s) (visit func order s)

/-- A call inserts no key that does not fit. -/
def clean : Op P → Table P → Prop
  | .search2 key data, t | .search key data, t =>
    (∃ p, data = some p ∧ Returns (fun fuel => hashTableSearch2 fuel key none t) (t, none)) →
      key.length ≤ keyRoom
  | .del _, _ => True

section shape
variable {t : Table P} {links : Node P → Link (Node P)} {l : Nat → List P} {i : Nat} {p : P}
variable {key : Key}

/-- The buckets hold the given values, and all other values are alone. -/
structure Shape (links : Node P → Link (Node P)) (l : Nat → List P) : Prop where
  linked : ∀ i, Linked links none (.bucket i :: (l i).map .value) none
  nodup : ∀ i, (l i).Nodup
  apart : ∀ i j p, p ∈ l i → p ∈ l j → i = j
  loose : ∀ p, (∀ i, p ∉ l i) → links (.value p) = loose

omit [DecidableEq P] in
theorem Shape.first (shape : Shape links l) (i : Nat) :
    (links (.bucket i)).next = ((l i).map Node.value).head? := by
  rw [(shape.linked i).head]

omit [DecidableEq P] in
theorem mem_chain {x : Node P} : x ∈ Node.bucket i :: (l i).map .value ↔
    x = .bucket i ∨ ∃ p ∈ l i, x = .value p := by
  simp only [List.mem_cons, List.mem_map, eq_comm]

omit [DecidableEq P] in
theorem Shape.distinct (shape : Shape links l) (i : Nat) :
    (Node.bucket i :: (l i).map .value).Nodup := by
  rw [List.nodup_cons]
  constructor
  · intro member
    obtain ⟨p, _, no⟩ := List.mem_map.mp member
    cases no
  · refine (shape.nodup i).map fun p q same => ?_
    cases same
    rfl

omit [DecidableEq P] in
/-- Chains of different buckets have no element in common. -/
theorem Shape.chains_apart (shape : Shape links l) {j : Nat} (other : j ≠ i) {x : Node P}
    (member : x ∈ Node.bucket j :: (l j).map .value) :
    x ∉ Node.bucket i :: (l i).map .value := by
  rw [mem_chain] at member ⊢
  rintro (here | ⟨q, inside, here⟩)
  · rcases member with same | ⟨p, _, same⟩
    · cases same.symm.trans here
      exact other rfl
    · cases same.symm.trans here
  · rcases member with same | ⟨p, inside', same⟩
    · cases same.symm.trans here
    · cases same.symm.trans here
      exact other (shape.apart j i q inside' inside)

theorem Shape.append (shape : Shape links l) (i : Nat) (fresh : ∀ j, p ∉ l j) :
    Shape (dlistAppend (some (.bucket i)) (.value p) links) (Function.update l i (p :: l i)) := by
  have outside : Node.value p ∉ Node.bucket i :: (l i).map .value := by
    rw [mem_chain]
    rintro (no | ⟨q, member, same⟩)
    · cases no
    · cases same
      exact fresh i member
  obtain ⟨linked, frame⟩ :=
    dlistAppend_linked (shape.linked i) (shape.loose p fresh) (shape.distinct i) outside
  have members : ∀ j q, q ∈ Function.update l i (p :: l i) j → j = i ∧ q = p ∨ q ∈ l j := by
    intro j q member
    by_cases here : j = i
    · rw [here, Function.update_self] at member
      rcases List.mem_cons.mp member with new | old
      · exact .inl ⟨here, new⟩
      · exact .inr (here ▸ old)
    · rw [Function.update_of_ne here] at member
      exact .inr member
  constructor
  · intro j
    by_cases here : j = i
    · rw [here, Function.update_self]
      exact linked
    · rw [Function.update_of_ne here]
      refine (shape.linked j).congr fun x member => frame x ?_
      have apart := shape.chains_apart here member
      rw [List.mem_cons, not_or] at apart
      rw [List.mem_cons, List.mem_cons, not_or, not_or]
      refine ⟨apart.1, ?_, apart.2⟩
      rintro rfl
      rcases mem_chain.mp member with no | ⟨q, inside, same⟩
      · cases no
      · cases same
        exact fresh j inside
  · intro j
    by_cases here : j = i
    · rw [here, Function.update_self]
      exact List.nodup_cons.mpr ⟨fresh i, shape.nodup i⟩
    · rw [Function.update_of_ne here]
      exact shape.nodup j
  · intro j k q first second
    rcases members j q first with ⟨rfl, rfl⟩ | old
    · rcases members k q second with ⟨rfl, _⟩ | old
      · rfl
      · exact absurd old (fresh k)
    · rcases members k q second with ⟨rfl, rfl⟩ | old'
      · exact absurd old (fresh j)
      · exact shape.apart j k q old old'
  · intro q free
    have apart : q ≠ p := by
      rintro rfl
      refine free i ?_
      rw [Function.update_self]
      exact List.mem_cons_self
    have free' : ∀ j, q ∉ l j := by
      intro j member
      refine free j ?_
      by_cases here : j = i
      · rw [here, Function.update_self]
        exact List.mem_cons_of_mem p (here ▸ member)
      · rwa [Function.update_of_ne here]
    rw [frame, shape.loose q free']
    rw [List.mem_cons, List.mem_cons, List.mem_map]
    rintro (no | same | ⟨x, inside, same⟩)
    · cases no
    · cases same
      exact apart rfl
    · cases same
      exact free' i inside

theorem Shape.del (shape : Shape links l) {pre post : List P} (place : l i = pre ++ p :: post) :
    Shape (dlistDel (.value p) links).1 (Function.update l i (pre ++ post)) := by
  have chain : Node.bucket i :: (l i).map .value =
      (Node.bucket i :: pre.map .value) ++ .value p :: post.map .value := by
    rw [place, List.map_append, List.map_cons, List.cons_append]
  have linked := shape.linked i
  have distinct := shape.distinct i
  have nodup := shape.nodup i
  rw [chain] at linked distinct
  rw [place, List.nodup_middle, List.nodup_cons] at nodup
  obtain ⟨_, linked', alone, frame⟩ := dlistDel_linked linked distinct
  have subset : ∀ q, q ∈ pre ++ post → q ∈ l i := by
    intro q member
    rw [place]
    exact List.mem_append.mpr ((List.mem_append.mp member).imp_right (List.mem_cons_of_mem p))
  have members : ∀ j q, q ∈ Function.update l i (pre ++ post) j → q ∈ l j := by
    intro j q member
    by_cases here : j = i
    · rw [here, Function.update_self] at member
      exact here ▸ subset q member
    · rwa [Function.update_of_ne here] at member
  constructor
  · intro j
    by_cases here : j = i
    · rw [here, Function.update_self, List.map_append]
      exact linked'
    · rw [Function.update_of_ne here]
      refine (shape.linked j).congr fun x member => frame x ?_
      rw [← chain]
      exact shape.chains_apart here member
  · intro j
    by_cases here : j = i
    · rw [here, Function.update_self]
      exact nodup.2
    · rw [Function.update_of_ne here]
      exact shape.nodup j
  · intro j k q first second
    exact shape.apart j k q (members j q first) (members k q second)
  · intro q free
    by_cases here : q = p
    · rw [here, alone]
    · have free' : ∀ j, q ∉ l j := by
        intro j member
        refine free j ?_
        by_cases same : j = i
        · rw [same, place] at member
          rw [same, Function.update_self]
          simpa [here] using member
        · rwa [Function.update_of_ne same]
      rw [frame, shape.loose q free']
      rw [← chain, mem_chain]
      rintro (no | ⟨x, inside, same⟩)
      · cases no
      · cases same
        exact free' i inside

variable (key) in
omit [DecidableEq P] in
/-- The search finds the first value of its bucket that has the key. -/
theorem searchLoop_spec {rest : List P} {before : Option (Node P)}
    (linked : Linked t.links before (rest.map .value) none) :
    Returns (fun fuel => searchLoop t key fuel (rest.map Node.value).head?)
      (rest.find? fun p => t.keys p = key) := by
  induction rest generalizing before with
  | nil => exact .of_add 1 fun _ => rfl
  | cons p rest ih =>
    have next : (t.links (.value p)).next = (rest.map Node.value).head? := by
      rw [linked.1, Option.or_none]
    by_cases here : t.keys p = key
    · refine .of_add 1 fun fuel => ?_
      rw [List.find?_cons_of_pos (by simpa using here)]
      exact if_pos here
    · rw [List.find?_cons_of_neg (by simpa using here)]
      refine Returns.succ (fun fuel => ?_) (ih linked.2)
      rw [← next]
      exact if_neg here

omit [DecidableEq P] in
theorem visit_cons (func : P → S → S × Int) (p : P) (l : List P) (s : S) :
    visit func (p :: l) s =
      if (func p s).2 ≠ 0 then func p s else visit func l (func p s).1 := rfl

omit [DecidableEq P] in
theorem traverLoop_spec (func : P → S → S × Int) {rest : List P} {before : Option (Node P)}
    (linked : Linked t.links before (rest.map .value) none) (s : S) :
    Returns (fun fuel => traverLoop func t fuel (rest.map Node.value).head? s)
      (visit func rest s) := by
  induction rest generalizing before s with
  | nil => exact .of_add 1 fun _ => rfl
  | cons p rest ih =>
    have next : (t.links (.value p)).next = (rest.map Node.value).head? := by
      rw [linked.1, Option.or_none]
    by_cases stop : (func p s).2 ≠ 0
    · refine .of_add 1 fun fuel => ?_
      rw [visit_cons, if_pos stop]
      exact if_pos stop
    · rw [visit_cons, if_neg stop]
      refine Returns.succ (fun fuel => ?_) (ih linked.2 (func p s).1)
      rw [← next]
      exact if_neg stop

omit [DecidableEq P] in
theorem traverBuckets_spec (func : P → S → S × Int) (shape : Shape t.links l) (n i : Nat) (s : S) :
    Returns (fun fuel => traverBuckets func t fuel n i s)
      (visit func ((List.range' i n).flatMap l) s) := by
  induction n generalizing i s with
  | zero => exact .pure _
  | succ n ih =>
    have first := traverLoop_spec func (shape.linked i).2 s
    rw [← shape.first] at first
    rw [List.range'_succ, List.flatMap_cons, visit_append]
    by_cases stop : (visit func (l i) s).2 ≠ 0
    · rw [if_pos stop]
      refine first.imp fun fuel found => ?_
      rw [traverBuckets, found]
      exact if_pos stop
    · rw [if_neg stop]
      refine first.imp₂ (ih (i + 1) (visit func (l i) s).1) fun fuel found rest => ?_
      rw [traverBuckets, found]
      exact (if_neg stop).trans rest

end shape

theorem hashLoop_lt {hash : Nat} (small : hash < hashNum) (key : Key) :
    hashLoop hash key < hashNum := by
  induction key generalizing hash with
  | nil => exact small
  | cons c key ih => exact ih (Nat.mod_lt _ (by decide))

section map
variable {t : Table P} {a : Map P} {l : Nat → List P} {key : Key} {p : P} {data : Option P}

omit [DecidableEq P] in
theorem find_mem (found : a.find key = some p) : (key, p) ∈ a := by
  obtain ⟨entry, here, rfl⟩ := Option.map_eq_some_iff.mp found
  have same : entry.1 = key := by simpa using List.find?_some here
  rw [← same]
  exact List.mem_of_find?_eq_some here

omit [DecidableEq P] in
theorem find_none (absent : a.find key = none) (p : P) : (key, p) ∉ a := by
  intro member
  have no := List.find?_eq_none.mp (Option.map_eq_none_iff.mp absent) (key, p) member
  simp at no

/-- The values of the map lie in the buckets of their keys, which stand in front of them. -/
structure Represents (t : Table P) (a : Map P) (l : Nat → List P) : Prop where
  shape : Shape t.links l
  members : ∀ i p, p ∈ l i ↔ ∃ key, (key, p) ∈ a ∧ hashFunc key = i
  keys : ∀ entry ∈ a, t.keys entry.2 = entry.1
  unique : (a.map Prod.fst).Nodup
  values : (a.map Prod.snd).Nodup
  num : t.num = a.length

def Inv (t : Table P) (a : Map P) : Prop := ∃ l, Represents t a l

omit [DecidableEq P] in
theorem Represents.fresh (rep : Represents t a l) (free : p ∉ a.map Prod.snd) (i : Nat) :
    p ∉ l i := by
  intro member
  obtain ⟨key, inside, _⟩ := (rep.members i p).mp member
  exact free (List.mem_map.mpr ⟨(key, p), inside, rfl⟩)

omit [DecidableEq P] in
theorem Represents.find (rep : Represents t a l) (key : Key) :
    (l (hashFunc key)).find? (fun p => t.keys p = key) = a.find key := by
  have keyed : ∀ q ∈ l (hashFunc key), t.keys q = key → (key, q) ∈ a := by
    intro q member same
    obtain ⟨key', inside, _⟩ := (rep.members _ q).mp member
    have own : t.keys q = key' := rep.keys (key', q) inside
    rwa [← own, same] at inside
  cases found : a.find key with
  | none =>
    apply List.find?_eq_none.mpr
    intro q member same
    exact find_none found q (keyed q member (by simpa using same))
  | some p =>
    have inside := find_mem found
    have own : t.keys p = key := rep.keys (key, p) inside
    have member : p ∈ l (hashFunc key) := (rep.members _ p).mpr ⟨key, inside, rfl⟩
    cases here : (l (hashFunc key)).find? (fun p => t.keys p = key) with
    | none =>
      have no := List.find?_eq_none.mp here p member
      simp [own] at no
    | some q =>
      have inside' := keyed q (List.mem_of_find?_eq_some here) (by simpa using List.find?_some here)
      have same := List.inj_on_of_nodup_map rep.unique inside inside' rfl
      rw [(Prod.mk.inj same).2]

/-- The table with a value taken in. -/
def inserted (key : Key) (p : P) (t : Table P) : Table P where
  links := dlistAppend (some (.bucket (hashFunc key))) (.value p) t.links
  keys := Function.update t.keys p (key.take keyRoom)
  num := t.num + 1

theorem search2_found (shape : Shape t.links l)
    (found : (l (hashFunc key)).find? (fun p => t.keys p = key) = some p) (other : data ≠ some p) :
    Returns (fun fuel => hashTableSearch2 fuel key data t) (t, some p) := by
  have search := searchLoop_spec key (shape.linked (hashFunc key)).2
  rw [← shape.first, found] at search
  refine search.imp fun fuel result => ?_
  simp [hashTableSearch2, hashSearch2, result, other.symm]

theorem search2_missing (shape : Shape t.links l)
    (absent : (l (hashFunc key)).find? (fun p => t.keys p = key) = none) :
    Returns (fun fuel => hashTableSearch2 fuel key none t) (t, none) := by
  have search := searchLoop_spec key (shape.linked (hashFunc key)).2
  rw [← shape.first, absent] at search
  refine search.imp fun fuel result => ?_
  simp [hashTableSearch2, hashSearch2, result]

theorem search2_inserts (shape : Shape t.links l)
    (absent : (l (hashFunc key)).find? (fun p => t.keys p = key) = none) (p : P) :
    Returns (fun fuel => hashTableSearch2 fuel key (some p) t) (inserted key p t, some p) := by
  have search := searchLoop_spec key (shape.linked (hashFunc key)).2
  rw [← shape.first, absent] at search
  refine search.imp fun fuel result => ?_
  simp [hashTableSearch2, hashSearch2, result, inserted]

theorem Represents.search_none (rep : Represents t a l) (key : Key) :
    Returns (fun fuel => hashTableSearch2 fuel key none t) (t, a.find key) := by
  have find := rep.find key
  cases found : a.find key with
  | none => exact search2_missing rep.shape (find.trans found)
  | some p => exact search2_found rep.shape (find.trans found) (by simp)

/-- A key that fits is taken in. -/
theorem Represents.insert (rep : Represents t a l) (free : p ∉ a.map Prod.snd)
    (absent : a.find key = none) (fits : key.length ≤ keyRoom) :
    Represents (inserted key p t) ((key, p) :: a)
      (Function.update l (hashFunc key) (p :: l (hashFunc key))) := by
  constructor
  · exact rep.shape.append _ (rep.fresh free)
  · intro i q
    have old := rep.members i q
    by_cases here : i = hashFunc key
    · subst here
      rw [Function.update_self, List.mem_cons, old]
      constructor
      · rintro (rfl | ⟨key', member, same⟩)
        · exact ⟨key, List.mem_cons_self, rfl⟩
        · exact ⟨key', List.mem_cons_of_mem _ member, same⟩
      · rintro ⟨key', member, same⟩
        rcases List.mem_cons.mp member with new | old
        · exact .inl (congrArg Prod.snd new)
        · exact .inr ⟨key', old, same⟩
    · rw [Function.update_of_ne here, old]
      constructor
      · rintro ⟨key', member, same⟩
        exact ⟨key', List.mem_cons_of_mem _ member, same⟩
      · rintro ⟨key', member, same⟩
        rcases List.mem_cons.mp member with new | old
        · cases new
          exact absurd same.symm here
        · exact ⟨key', old, same⟩
  · intro entry member
    rcases List.mem_cons.mp member with rfl | old
    · exact (Function.update_self ..).trans (List.take_of_length_le fits)
    · have apart : entry.2 ≠ p := fun same =>
        free (List.mem_map.mpr ⟨entry, old, same⟩)
      exact (Function.update_of_ne apart ..).trans (rep.keys entry old)
  · refine List.nodup_cons.mpr ⟨fun member => ?_, rep.unique⟩
    obtain ⟨entry, inside, same⟩ := List.mem_map.mp member
    have same : entry.1 = key := same
    rw [← Prod.eta entry, same] at inside
    exact find_none absent entry.2 inside
  · exact List.nodup_cons.mpr ⟨free, rep.values⟩
  · change t.num + 1 = _
    rw [rep.num, List.length_cons, Nat.cast_succ]

theorem Represents.malloc (rep : Represents t a l)
    (free : ∀ p, data = some p → p ∉ a.map Prod.snd) : Represents (hashMalloc data t) a l := by
  cases data with
  | none => exact rep
  | some p =>
    have fresh := rep.fresh (free p rfl)
    have same : Function.update t.links (.value p) loose = t.links := by
      rw [← rep.shape.loose p fresh, Function.update_eq_self]
    constructor
    · change Shape (Function.update t.links (.value p) loose) l
      rw [same]
      exact rep.shape
    · exact rep.members
    · intro entry member
      have apart : entry.2 ≠ p := fun same =>
        free p rfl (List.mem_map.mpr ⟨entry, member, same⟩)
      exact (Function.update_of_ne apart ..).trans (rep.keys entry member)
    · exact rep.unique
    · exact rep.values
    · exact rep.num

theorem Represents.del (rep : Represents t a l) (member : p ∈ a.map Prod.snd) :
    Inv (hashTableDel p t) (a.filter fun entry => entry.2 ≠ p) := by
  obtain ⟨⟨key, q⟩, inside, rfl⟩ := List.mem_map.mp member
  obtain ⟨pre, post, place⟩ := List.append_of_mem ((rep.members _ q).mpr ⟨key, inside, rfl⟩)
  have nodup := rep.shape.nodup (hashFunc key)
  rw [place, List.nodup_middle, List.nodup_cons] at nodup
  refine ⟨_, rep.shape.del place, ?_, ?_, ?_, ?_, ?_⟩
  · intro i x
    have left : x ∈ Function.update l (hashFunc key) (pre ++ post) i ↔ x ∈ l i ∧ x ≠ q := by
      by_cases here : i = hashFunc key
      · subst here
        rw [Function.update_self, place]
        constructor
        · intro inRest
          exact ⟨List.mem_append.mpr ((List.mem_append.mp inRest).imp_right
            (List.mem_cons_of_mem q)), fun same => nodup.1 (same ▸ inRest)⟩
        · rintro ⟨inside, apart⟩
          simpa [apart] using inside
      · rw [Function.update_of_ne here]
        refine ⟨fun inside' => ⟨inside', ?_⟩, And.left⟩
        rintro rfl
        refine here (rep.shape.apart i (hashFunc key) x inside' ?_)
        rw [place]
        exact List.mem_append_right pre List.mem_cons_self
    rw [left, rep.members]
    constructor
    · rintro ⟨⟨key', inside', same⟩, apart⟩
      exact ⟨key', List.mem_filter.mpr ⟨inside', by simpa using apart⟩, same⟩
    · rintro ⟨key', inside', same⟩
      obtain ⟨old, apart⟩ := List.mem_filter.mp inside'
      exact ⟨⟨key', old, same⟩, by simpa using apart⟩
  · intro entry inside'
    exact rep.keys entry (List.mem_filter.mp inside').1
  · exact rep.unique.sublist (List.filter_sublist.map Prod.fst)
  · exact rep.values.sublist (List.filter_sublist.map Prod.snd)
  · have values := rep.values
    obtain ⟨front, rear, rfl⟩ := List.append_of_mem inside
    rw [List.map_append, List.map_cons, List.nodup_middle, List.nodup_cons,
      ← List.map_append] at values
    have others : ∀ entry ∈ front ++ rear, decide (entry.2 ≠ q) = true := by
      intro entry inside'
      refine decide_eq_true fun same => values.1 ?_
      exact List.mem_map.mpr ⟨entry, inside', same⟩
    have gone : (front ++ (key, q) :: rear).filter (fun entry => entry.2 ≠ q) = front ++ rear := by
      rw [List.filter_append, List.filter_cons_of_neg (by simp), ← List.filter_append,
        List.filter_eq_self.mpr others]
    rw [gone]
    change t.num - 1 = _
    rw [rep.num]
    simp only [List.length_append, List.length_cons]
    omega

omit [DecidableEq P] in
theorem nil_represents : Represents (empty : Table P) [] fun _ => [] where
  shape := ⟨fun _ => ⟨rfl, trivial⟩, fun _ => .nil, fun _ _ _ no => absurd no List.not_mem_nil,
    fun _ _ => rfl⟩
  members i p := by simp
  keys _ no := absurd no List.not_mem_nil
  unique := .nil
  values := .nil
  num := rfl

omit [DecidableEq P] in
theorem Represents.traver (rep : Represents t a l) : ∃ order, order.Perm (a.map Prod.snd) ∧
    order.Nodup ∧ ∀ (S : Type) (func : P → S → S × Int) (s : S),
      Returns (fun fuel => hashTraver func fuel t s) (visit func order s) := by
  have nodup : ((List.range' 0 hashNum).flatMap l).Nodup := by
    rw [List.nodup_flatMap]
    refine ⟨fun i _ => rep.shape.nodup i, ?_⟩
    have distinct : (List.range' 0 hashNum).Nodup := List.nodup_range'
    refine distinct.imp fun {i j} other => ?_
    intro p first second
    exact other (rep.shape.apart i j p first second)
  refine ⟨(List.range' 0 hashNum).flatMap l, ?_, nodup, fun S func s => ?_⟩
  · refine (List.perm_ext_iff_of_nodup nodup rep.values).mpr fun p => ?_
    rw [List.mem_flatMap, List.mem_map]
    constructor
    · rintro ⟨i, _, member⟩
      obtain ⟨key, inside, _⟩ := (rep.members i p).mp member
      exact ⟨(key, p), inside, rfl⟩
    · rintro ⟨entry, inside, rfl⟩
      refine ⟨hashFunc entry.1, ?_, (rep.members _ _).mpr ⟨entry.1, inside, rfl⟩⟩
      have small : hashFunc entry.1 < hashNum := hashLoop_lt (by decide) entry.1
      rw [List.mem_range'_1]
      exact ⟨Nat.zero_le _, by rw [Nat.zero_add]; exact small⟩
  · exact traverBuckets_spec func rep.shape hashNum 0 s

theorem Represents.matches (rep : Represents t a l) : Matches t a where
  search := rep.search_none
  unique := rep.unique
  num := rep.num
  traver := rep.traver

omit [DecidableEq P] in
theorem step_iff [DecidableEq P] {op : Op P} {t' : Table P} {out : Option P} :
    step op t = some (t', out) ↔ Returns (fun fuel => stepFuel fuel op t) (t', out) :=
  limit_eq_some

omit [DecidableEq P] in
theorem search_found (found : a.find key = some p) : a.search key data = a := by
  unfold Map.search
  rw [found]

omit [DecidableEq P] in
theorem search_nothing : a.search key none = a := by
  cases found : a.find key with
  | some p => exact search_found found
  | none =>
    unfold Map.search
    rw [found]

omit [DecidableEq P] in
theorem search_absent (absent : a.find key = none) : a.search key (some p) = (key, p) :: a := by
  unfold Map.search
  rw [absent]

/-- A search keeps a table that is a map so where it inserts no key that is too long. -/
theorem search_keeps (rep : Represents t a l) (free : ∀ p, data = some p → p ∉ a.map Prod.snd)
    (fits : (∃ p, data = some p) → a.find key = none → key.length ≤ keyRoom) :
    ∃ t', Returns (fun fuel => hashTableSearch2 fuel key data t) (t', (a.find key).or data) ∧
      Inv t' (a.search key data) := by
  have find := rep.find key
  cases found : a.find key with
  | some p =>
    have other : data ≠ some p := fun same => free p same
      (List.mem_map.mpr ⟨(key, p), find_mem found, rfl⟩)
    refine ⟨t, search2_found rep.shape (find.trans found) other, l, ?_⟩
    rw [search_found found]
    exact rep
  | none =>
    cases data with
    | none =>
      refine ⟨t, search2_missing rep.shape (find.trans found), l, ?_⟩
      rw [search_nothing]
      exact rep
    | some p =>
      rw [search_absent found]
      exact ⟨_, search2_inserts rep.shape (find.trans found) p, _,
        rep.insert (free p rfl) found (fits ⟨p, rfl⟩ found)⟩

/-- After the insertion of a longer key no search finds it. -/
theorem search_forced (rep : Represents t a l) (free : p ∉ a.map Prod.snd)
    (absent : a.find key = none) {t' : Table P} {out : Option P}
    (run : Returns (fun fuel => hashTableSearch2 fuel key (some p) t) (t', out))
    (matching : Matches t' (a.search key (some p))) : key.length ≤ keyRoom := by
  have find := (rep.find key).trans absent
  cases run.unique (search2_inserts rep.shape find p)
  have shape := rep.shape.append (hashFunc key) (rep.fresh free)
  by_contra long
  have missed : (Function.update l (hashFunc key) (p :: l (hashFunc key)) (hashFunc key)).find?
      (fun q => (inserted key p t).keys q = key) = none := by
    rw [Function.update_self]
    apply List.find?_eq_none.mpr
    intro q member
    change ¬ decide (Function.update t.keys p (key.take keyRoom) q = key) = true
    by_cases here : q = p
    · rw [here, Function.update_self, decide_eq_true_eq]
      intro same
      have length := congrArg List.length same
      rw [List.length_take] at length
      omega
    · rw [Function.update_of_ne here]
      refine List.find?_eq_none.mp find q ?_
      exact (List.mem_cons.mp member).resolve_left here
  have nothing := search2_missing (t := inserted key p t) shape missed
  have wanted := congrArg Prod.snd ((matching.search key).unique nothing)
  rw [search_absent absent] at wanted
  simp [Map.find] at wanted

theorem step_keeps (inv : Inv t a) (op : Op P) (fine : legal op a) (ok : clean op t) :
    ∃ t' out, step op t = some (t', out) ∧ allowed op a t t' out ∧ Inv t' (spec op a) := by
  obtain ⟨l, rep⟩ := inv
  cases op with
  | search2 key data =>
    have fits : (∃ p, data = some p) → a.find key = none → key.length ≤ keyRoom := by
      rintro ⟨p, given⟩ absent
      exact ok ⟨p, given, absent ▸ rep.search_none key⟩
    obtain ⟨t', run, inv'⟩ := search_keeps rep fine fits
    exact ⟨t', _, step_iff.mpr run, rfl, inv'⟩
  | search key data =>
    have fits : (∃ p, data = some p) → a.find key = none → key.length ≤ keyRoom := by
      rintro ⟨p, given⟩ absent
      exact ok ⟨p, given, absent ▸ rep.search_none key⟩
    obtain ⟨t', run, inv'⟩ := search_keeps (rep.malloc fine) fine fits
    exact ⟨t', _, step_iff.mpr run, rfl, inv'⟩
  | del p => exact ⟨_, none, step_iff.mpr (.pure _), trivial, rep.del fine⟩

theorem step_forced (inv : Inv t a) (op : Op P) (fine : legal op a) {t' : Table P}
    {out : Option P} (ran : step op t = some (t', out)) (matching : Matches t' (spec op a)) :
    clean op t := by
  obtain ⟨l, rep⟩ := inv
  have run := step_iff.mp ran
  cases op with
  | search2 key data =>
    rintro ⟨p, rfl, missing⟩
    have absent : a.find key = none :=
      congrArg Prod.snd ((rep.search_none key).unique missing)
    exact search_forced rep (fine p rfl) absent run matching
  | search key data =>
    rintro ⟨p, rfl, missing⟩
    have absent : a.find key = none :=
      congrArg Prod.snd ((rep.search_none key).unique missing)
    exact search_forced (rep.malloc fine) (fine p rfl) absent run matching
  | del p => trivial

/-- Along every sequence of calls from the zeroed table, the table is a map from strings exactly
when none of them inserts a key of more than 255 characters. -/
theorem hashTable_map_iff {ops : List (Op P)} (fine : Legal legal spec ops []) :
    Follows step spec allowed Matches ops empty [] ↔ Meets step clean ops empty :=
  fine.follows_iff_meets (fun _ _ inv => inv.elim fun _ rep => rep.matches)
    (fun op _ _ inv fine ok => step_keeps inv op fine ok)
    (fun op _ _ _ _ inv fine ran _ matching => step_forced inv op fine ran matching)
    ⟨_, nil_represents⟩

end map

section keys

/-- A value is inserted, found again, which frees the memory for a second one, and deleted. -/
def shortKeys : List (Op Nat) := [.search2 [97] (some 1), .search [97] (some 2), .del 1]

theorem hashTable_map_shortKeys : Follows step spec allowed Matches shortKeys empty [] ↔
    Meets step clean shortKeys empty :=
  hashTable_map_iff (by simp [shortKeys, Legal, legal, spec, Map.search, Map.find])

/-- A key of 256 characters, which a host name may have. -/
def longKey : Key := List.replicate 256 97

/-- The value of a longer key is not found under it. -/
theorem hashTable_longKey : Legal legal spec [Op.search2 longKey (some 1)] [] ∧
    ¬ Follows step spec allowed Matches [Op.search2 longKey (some 1)] (empty : Table Nat) [] := by
  refine ⟨by simp [Legal, legal], ?_⟩
  rintro ⟨_, t, out, ran, _, matching⟩
  have fits := search_forced nil_represents (p := 1) (by simp) rfl (step_iff.mp ran) matching
  exact absurd fits (by decide +kernel)

end keys
end MoonInWater.HashTable
