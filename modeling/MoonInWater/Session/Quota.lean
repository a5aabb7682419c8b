import MoonInWater.Lib.Threads

/-! The memory quota of the sessions: get_mem and put_mem on one counter, and the counters of the
streams. -/
namespace MoonInWater.Session.Quota
open Threads

/-- Additions and subtractions of uint64_t. -/
def add64 (x y : Nat) : Nat := (x + y) % 18446744073709551616
def sub64 (x y : Nat) : Nat := (x + 18446744073709551616 - y) % 18446744073709551616

/-- The levels below one, each higher by `u64` than the one behind it. -/
def raise (u64 : Nat) : Nat → Nat → List Nat
  | _, 0 => []
  | level, n + 1 => raise u64 (add64 level u64) n ++ [add64 level u64]

/-- set_session_mem: the levels of `mem_manager`. -/
def setSessionMem (memNum : Nat) : List Nat :=
  memNum :: raise (memNum / 16) (memNum / 2) 7 ++ [memNum / 2, memNum / 2] ++
    List.replicate 6 (memNum / 4)

def streamLevelMap : List Nat := [0, 1, 2, 2, 3, 3, 3, 3, 4, 4, 4, 4, 4, 4, 4, 4]

/-- The level that stream_get_mem asks for. -/
def streamLevel (u64 : Nat) : Nat :=
  if u64 < 8 * 1024 * 1024 then
    let u64 := u64 / 2 ^ 14
    if 16 ≤ u64 then 5 + streamLevelMap.getD (u64 / 2 ^ 5) 0
    else streamLevelMap.getD u64 0
  else 10

/-- A grant, with the arguments of its get_mem and the value of `used` that the exchange replaced.
`left` is what was not put back. The owner is a stream, or none. -/
structure Grant (S : Type) where
  owner : Option S
  levelNum : Nat
  min : Nat
  max : Nat
  before : Nat
  value : Nat
  left : Nat
deriving DecidableEq

/-- `mem_manager.used`, the `mem_used` of each stream, and the grants so far. -/
structure MemManager (S : Type) where
  used : Nat
  memUsed : S → Nat
  grants : List (Grant S)

/-- A call of get_mem, put_mem, stream_get_mem or stream_put_mem. -/
inductive Request (S : Type) where
  | get (levelNum min max : Nat)
  | put (n : Nat)
  | streamGet (s : S) (min max : Nat)
  | streamPut (s : S) (n : Nat)

/-- Before the addition of stream_get_mem, the first and the second read of `used`, the exchange,
the subtraction of stream_get_mem, the ones of put_mem and of stream_put_mem. -/
inductive Local (S : Type) where
  | charge (s : S) (min max : Nat)
  | check (owner : Option S) (levelNum min max : Nat)
  | read (owner : Option S) (levelNum min max : Nat)
  | swap (owner : Option S) (levelNum min max u64 u64Tmp : Nat)
  | refund (s : S) (n : Nat) (got : Option Nat)
  | release (owner : Option S) (n : Nat)
  | giveBack (s : S) (n : Nat)
  | done (got : Option Nat)
deriving DecidableEq

section
variable {S : Type} [DecidableEq S] (memNum : Nat)

def levelOf (levelNum : Nat) : Nat := (setSessionMem memNum).getD levelNum 0

/-- Behind get_mem: stream_get_mem takes from its stream what it did not get. -/
def leave (owner : Option S) (max : Nat) (got : Option Nat) : Local S :=
  match owner with
  | none => .done got
  | some s =>
    let u64Tmp := sub64 max (got.getD 0)
    if 0 < u64Tmp then .refund s u64Tmp got else .done got

/-- The test in front of the loop of get_mem. -/
def enter (owner : Option S) (levelNum min max : Nat) : Local S :=
  if levelNum < (setSessionMem memNum).length ∧ min ≤ levelOf memNum levelNum then
    .check owner levelNum min max
  else leave owner max none

/-- The arguments are uint64_t. -/
def start (e : Request S) (g : MemManager S) : Option (MemManager S × Local S) :=
  match e with
  | .get levelNum min max =>
    if min ≤ max ∧ max < 18446744073709551616 then some (g, enter memNum none levelNum min max)
    else none
  | .put n => if n < 18446744073709551616 then some (g, .release none n) else none
  | .streamGet s min max =>
    if min ≤ max ∧ max < 18446744073709551616 then some (g, .charge s min max) else none
  | .streamPut s n => if n < 18446744073709551616 then some (g, .release (some s) n) else none

/-- Behind put_mem: stream_put_mem goes on with its stream. -/
def behindPut (owner : Option S) (n : Nat) : Local S :=
  match owner with
  | none => .done none
  | some s => .giveBack s n

/-- Memory that is put back is a part of some grants of the same owner. -/
def putBack (owner : Option S) : List (Grant S) → List Nat → Option (List (Grant S))
  | [], [] => some []
  | grant :: grants, part :: parts =>
    if part ≤ grant.left ∧ (part = 0 ∨ grant.owner = owner) then
      (putBack owner grants parts).map ({ grant with left := grant.left - part } :: ·)
    else none
  | _, _ => none

/-- One atomic step; `parts` says which grants are put back. -/
def step (parts : List Nat) (g : MemManager S) : Local S → Option (MemManager S × Local S)
  | .charge s min max =>
    let u64 := add64 (g.memUsed s) max
    some ({ g with memUsed := Function.update g.memUsed s u64 },
      enter memNum (some s) (streamLevel u64) min max)
  | .check owner levelNum min max =>
    if g.used ≤ sub64 (levelOf memNum levelNum) min then some (g, .read owner levelNum min max)
    else some (g, leave owner max none)
  | .read owner levelNum min max =>
    let left := sub64 (levelOf memNum levelNum) g.used
    some (g, .swap owner levelNum min max g.used (if max < left then max else left))
  | .swap owner levelNum min max u64 u64Tmp =>
    if g.used = u64 then
      some ({ g with
          used := add64 u64 u64Tmp
          grants := ⟨owner, levelNum, min, max, u64, u64Tmp, u64Tmp⟩ :: g.grants },
        leave owner max (some u64Tmp))
    else some (g, .check owner levelNum min max)
  | .refund s n got =>
    some ({ g with memUsed := Function.update g.memUsed s (sub64 (g.memUsed s) n) }, .done got)
  | .release owner n =>
    if parts.sum = n then
      (putBack owner g.grants parts).map fun grants =>
        ({ g with used := sub64 g.used n, grants := grants }, behindPut owner n)
    else none
  | .giveBack s n =>
    some ({ g with memUsed := Function.update g.memUsed s (sub64 (g.memUsed s) n) }, .done none)
  | .done _ => none

/-- The calls on the memory that set_session_mem shared out. -/
def protocol : Program (MemManager S) (Local S) (Request S) (List Nat) := ⟨start memNum, step memNum⟩

end

/-- Nothing is granted. -/
def fresh {S : Type} : Config (MemManager S) (Local S) := ⟨⟨0, fun _ => 0, []⟩, []⟩

section
variable {S : Type} [DecidableEq S] {memNum : Nat}

/-- The sum of the outstanding grants, and of those of a stream. -/
def outstanding (grants : List (Grant S)) : Nat := (grants.map (·.left)).sum

def outstandingOf (s : S) (grants : List (Grant S)) : Nat :=
  (grants.map fun grant => if grant.owner = some s then grant.left else 0).sum

/-- The call is one of a stream and has not returned. -/
def OfStream (s : S) : Local S → Prop
  | .charge s' _ _ => s' = s
  | .check owner _ _ _ => owner = some s
  | .read owner _ _ _ => owner = some s
  | .swap owner _ _ _ _ _ => owner = some s
  | .refund s' _ _ => s' = s
  | .release owner _ => owner = some s
  | .giveBack s' _ => s' = s
  | .done _ => False

/-- Each grant is in its range and left `used` within its level; the counters are the sums of the
outstanding grants. -/
structure Sound (memNum : Nat) (c : Config (MemManager S) (Local S)) : Prop where
  grants : ∀ grant ∈ c.shared.grants, grant.min ≤ grant.value ∧ grant.value ≤ grant.max ∧
    grant.before + grant.value ≤ levelOf memNum grant.levelNum
  used : c.shared.used = outstanding c.shared.grants
  streams : ∀ s, (∀ l ∈ c.calls, ¬ OfStream s l) →
    c.shared.memUsed s = outstandingOf s c.shared.grants

/-- Each exchange that succeeded found `used` as low as the first read of the loop asks for. -/
def UpToDate (memNum : Nat) (grants : List (Grant S)) : Prop :=
  ∀ grant ∈ grants, grant.before + grant.min ≤ levelOf memNum grant.levelNum

/-- What a call has added to the counter of its stream and is not granted, or no more. -/
def owes (s : S) : Local S → Nat
  | .check owner _ _ max => if owner = some s then max else 0
  | .read owner _ _ max => if owner = some s then max else 0
  | .swap owner _ _ max _ _ => if owner = some s then max else 0
  | .refund s' n _ => if s' = s then n else 0
  | .giveBack s' n => if s' = s then n else 0
  | _ => 0

theorem owes_zero {s : S} {l : Local S} (other : ¬ OfStream s l) : owes s l = 0 := by
  cases l with
  | charge s' min max => rfl
  | check owner levelNum min max => exact if_neg other
  | read owner levelNum min max => exact if_neg other
  | swap owner levelNum min max u64 u64Tmp => exact if_neg other
  | refund s' n got => exact if_neg other
  | release owner n => rfl
  | giveBack s' n => exact if_neg other
  | done got => rfl

/-- The arguments of a call, and what it found out about them. -/
def LocalOk (memNum : Nat) : Local S → Prop
  | .charge _ min max => min ≤ max ∧ max < 18446744073709551616
  | .check _ levelNum min max => min ≤ max ∧ max < 18446744073709551616 ∧
      min ≤ levelOf memNum levelNum
  | .read _ levelNum min max => min ≤ max ∧ max < 18446744073709551616 ∧
      min ≤ levelOf memNum levelNum
  | .swap _ levelNum min max u64 u64Tmp => min ≤ max ∧ max < 18446744073709551616 ∧
      min ≤ levelOf memNum levelNum ∧ u64 < 18446744073709551616 ∧
      u64Tmp = if max < sub64 (levelOf memNum levelNum) u64 then max
        else sub64 (levelOf memNum levelNum) u64
  | .refund _ n _ => n < 18446744073709551616
  | .release _ n => n < 18446744073709551616
  | .giveBack _ n => n < 18446744073709551616
  | .done _ => True

structure Inv (memNum : Nat) (c : Config (MemManager S) (Local S)) : Prop where
  grants : ∀ grant ∈ c.shared.grants, grant.min ≤ grant.value ∧ grant.value ≤ grant.max ∧
    grant.before + grant.value ≤ levelOf memNum grant.levelNum
  used : c.shared.used = outstanding c.shared.grants
  room : c.shared.used < 18446744073709551616
  streams : ∀ s, c.shared.memUsed s =
    (outstandingOf s c.shared.grants + c.total (owes s)) % 18446744073709551616
  locals : ∀ l ∈ c.calls, LocalOk memNum l

theorem outstandingOf_le (s : S) (grants : List (Grant S)) :
    outstandingOf s grants ≤ outstanding grants := by
  apply List.sum_le_sum
  intro grant _
  by_cases own : grant.owner = some s
  · rw [if_pos own]
  · rw [if_neg own]
    exact Nat.zero_le _

theorem Inv.sound {c : Config (MemManager S) (Local S)} (inv : Inv memNum c) : Sound memNum c := by
  refine ⟨inv.grants, inv.used, ?_⟩
  intro s returned
  have none : c.total (owes s) = 0 := by
    apply List.sum_eq_zero
    intro n member
    obtain ⟨l, call, rfl⟩ := List.mem_map.mp member
    exact owes_zero (returned l call)
  have le := outstandingOf_le s c.shared.grants
  have room := inv.room
  rw [inv.streams s, none]
  rw [inv.used] at room
  omega

/-- A put takes its parts from the grants of its owner. -/
theorem putBack_spec {owner : Option S} {grants grants' : List (Grant S)} {parts : List Nat}
    (put : putBack owner grants parts = some grants') :
    outstanding grants' + parts.sum = outstanding grants ∧
      (∀ s, outstandingOf s grants' + (if owner = some s then parts.sum else 0) =
        outstandingOf s grants) ∧
      grants'.map (fun grant => { grant with left := 0 }) =
        grants.map fun grant => { grant with left := 0 } := by
  induction grants generalizing grants' parts with
  | nil =>
    cases parts with
    | nil =>
      cases put
      simp [outstandingOf]
    | cons part parts => cases put
  | cons grant grants ih =>
    cases parts with
    | nil => cases put
    | cons part parts =>
      rw [putBack] at put
      by_cases fits : part ≤ grant.left ∧ (part = 0 ∨ grant.owner = owner)
      · rw [if_pos fits] at put
        obtain ⟨rest, taken, rfl⟩ := Option.map_eq_some_iff.mp put
        obtain ⟨sum, sums, same⟩ := ih taken
        obtain ⟨le, own⟩ := fits
        refine ⟨?_, ?_, ?_⟩
        · simp only [outstanding, List.map_cons, List.sum_cons] at sum ⊢
          omega
        · intro s
          have sum := sums s
          simp only [outstandingOf, List.map_cons, List.sum_cons] at sum ⊢
          rcases own with zero | own
          · rw [zero, Nat.sub_zero, Nat.zero_add]
            omega
          · by_cases stream : owner = some s
            · simp only [if_pos stream, if_pos (own.trans stream)] at sum ⊢
              omega
            · have other : ¬ grant.owner = some s := fun is => stream (own.symm.trans is)
              simp only [if_neg stream, if_neg other] at sum ⊢
              omega
        · rw [List.map_cons, List.map_cons, same]
      · rw [if_neg fits] at put
        cases put

theorem raise_lt (u64 : Nat) (level n : Nat) : ∀ x ∈ raise u64 level n, x < 18446744073709551616 := by
  induction n generalizing level with
  | zero => simp [raise]
  | succ n ih =>
    intro x member
    rcases List.mem_append.mp member with above | last
    · exact ih _ x above
    · rw [List.mem_singleton.mp last, add64]
      exact Nat.mod_lt _ (by decide)

theorem levelOf_lt (word : memNum < 18446744073709551616) (levelNum : Nat) :
    levelOf memNum levelNum < 18446744073709551616 := by
  have all : ∀ x ∈ setSessionMem memNum, x < 18446744073709551616 := by
    intro x member
    simp only [setSessionMem, List.mem_append, List.mem_cons, List.mem_replicate,
      List.not_mem_nil, or_false] at member
    rcases member with ((rfl | raised) | rfl | rfl) | ⟨_, rfl⟩
    · exact word
    · exact raise_lt _ _ _ x raised
    · omega
    · omega
    · omega
  rw [levelOf, List.getD_eq_getElem?_getD]
  cases found : (setSessionMem memNum)[levelNum]? with
  | none => exact (by decide : 0 < 18446744073709551616)
  | some x => exact all x (List.mem_of_getElem? found)

section leave
variable {owner : Option S} {min max levelNum : Nat} {got : Option Nat}

omit [DecidableEq S] in
theorem leave_ok (owner : Option S) (max : Nat) (got : Option Nat) :
    LocalOk memNum (leave owner max got) := by
  cases owner with
  | none => trivial
  | some s =>
    rw [leave]
    by_cases rest : 0 < sub64 max (got.getD 0)
    · rw [if_pos rest]
      simp only [LocalOk, sub64]
      omega
    · rw [if_neg rest]
      trivial

/-- What is left for the stream is what was not granted. -/
theorem leave_owes (s : S) (small : max < 18446744073709551616) (le : got.getD 0 ≤ max) :
    owes s (leave owner max got) = if owner = some s then max - got.getD 0 else 0 := by
  cases owner with
  | none => rfl
  | some s' =>
    have left : sub64 max (got.getD 0) = max - got.getD 0 := by
      rw [sub64]
      omega
    rw [leave]
    simp only [left, Option.some.injEq]
    by_cases rest : 0 < max - got.getD 0
    · rw [if_pos rest]
      rfl
    · rw [if_neg rest]
      have zero : max - got.getD 0 = 0 := by omega
      rw [zero, ite_self]
      rfl

omit [DecidableEq S] in
theorem enter_ok (le : min ≤ max) (small : max < 18446744073709551616) :
    LocalOk memNum (enter memNum owner levelNum min max) := by
  rw [enter]
  split
  next found => exact ⟨le, small, found.2⟩
  next => exact leave_ok owner max none

theorem enter_owes (s : S) (small : max < 18446744073709551616) :
    owes s (enter memNum owner levelNum min max) = if owner = some s then max else 0 := by
  rw [enter]
  split
  · rfl
  · exact leave_owes s small (Nat.zero_le _)

end leave

section steps
variable {g g' : MemManager S} {l l' : Local S} {pre post : List (Local S)}

/-- One call acts. -/
theorem Inv.next (inv : Inv memNum ⟨g, pre ++ l :: post⟩)
    (grants : ∀ grant ∈ g'.grants, grant.min ≤ grant.value ∧ grant.value ≤ grant.max ∧
      grant.before + grant.value ≤ levelOf memNum grant.levelNum)
    (used : g'.used = outstanding g'.grants) (room : g'.used < 18446744073709551616)
    (streams : ∀ s n, g.memUsed s =
        (outstandingOf s g.grants + (owes s l + n)) % 18446744073709551616 →
      g'.memUsed s = (outstandingOf s g'.grants + (owes s l' + n)) % 18446744073709551616)
    (ok : LocalOk memNum l') : Inv memNum ⟨g', pre ++ l' :: post⟩ := by
  refine ⟨grants, used, room, ?_, ?_⟩
  · intro s
    have before := inv.streams s
    rw [total_split] at before ⊢
    exact streams s _ before
  · exact forall_split inv.locals ok fun l _ kept => kept

/-- The counter of a stream changes by what its call owes. -/
theorem Inv.memUsed (inv : Inv memNum ⟨g, pre ++ l :: post⟩) {s : S} {x : Nat}
    (own : ∀ n, g.memUsed s = (outstandingOf s g.grants + (owes s l + n)) % 18446744073709551616 →
      x = (outstandingOf s g.grants + (owes s l' + n)) % 18446744073709551616)
    (other : ∀ s', s' ≠ s → owes s' l' = owes s' l) (ok : LocalOk memNum l') :
    Inv memNum ⟨{ g with memUsed := Function.update g.memUsed s x }, pre ++ l' :: post⟩ := by
  refine @Inv.next S _ memNum g { g with memUsed := Function.update g.memUsed s x } l l' pre post
    inv inv.grants inv.used inv.room ?_ ok
  intro s' n before
  dsimp only
  by_cases same : s' = s
  · subst same
    rw [Function.update_self]
    exact own n before
  · rw [Function.update_of_ne same, other s' same]
    exact before

/-- The counters stay as they are. -/
theorem Inv.keep (inv : Inv memNum ⟨g, pre ++ l :: post⟩) (same : ∀ s, owes s l' = owes s l)
    (ok : LocalOk memNum l') : Inv memNum ⟨g, pre ++ l' :: post⟩ := by
  apply inv.next inv.grants inv.used inv.room ?_ ok
  intro s n before
  rw [same s]
  exact before

theorem swap_keeps (word : memNum < 18446744073709551616) {owner : Option S}
    {levelNum min max u64 u64Tmp : Nat}
    (inv : Inv memNum ⟨g, pre ++ .swap owner levelNum min max u64 u64Tmp :: post⟩)
    (same : g.used = u64) (current : u64 + min ≤ levelOf memNum levelNum) :
    Inv memNum ⟨{ g with
      used := add64 u64 u64Tmp
      grants := ⟨owner, levelNum, min, max, u64, u64Tmp, u64Tmp⟩ :: g.grants },
      pre ++ leave owner max (some u64Tmp) :: post⟩ := by
  obtain ⟨le, small, _, bound, value⟩ : LocalOk memNum
      (.swap owner levelNum min max u64 u64Tmp) := inv.locals _ (by simp)
  have level := levelOf_lt word levelNum
  have left : sub64 (levelOf memNum levelNum) u64 = levelOf memNum levelNum - u64 := by
    rw [sub64]
    omega
  rw [left] at value
  have range : min ≤ u64Tmp ∧ u64Tmp ≤ max ∧ u64 + u64Tmp ≤ levelOf memNum levelNum := by
    split at value
    · omega
    · omega
  have sum : add64 u64 u64Tmp = u64 + u64Tmp := by
    rw [add64]
    omega
  have used := inv.used
  dsimp only at used
  apply inv.next
  · intro grant member
    rcases List.mem_cons.mp member with rfl | old
    · exact range
    · exact inv.grants grant old
  · dsimp only
    rw [sum, ← same, used]
    simp only [outstanding, List.map_cons, List.sum_cons]
    omega
  · dsimp only
    rw [sum]
    omega
  · intro s n before
    have owed : owes s (leave owner max (some u64Tmp)) =
        if owner = some s then max - u64Tmp else 0 := leave_owes s small range.2.1
    dsimp only at before ⊢
    rw [before, owed]
    simp only [outstandingOf, List.map_cons, List.sum_cons, owes]
    by_cases own : owner = some s
    · simp only [if_pos own]
      congr 1
      omega
    · simp only [if_neg own]
      omega
  · exact leave_ok owner max _

theorem release_keeps {owner : Option S} {n : Nat} {parts : List Nat} {grants : List (Grant S)}
    (inv : Inv memNum ⟨g, pre ++ .release owner n :: post⟩) (sum : parts.sum = n)
    (put : putBack owner g.grants parts = some grants)
    (own : ∀ s, owes s l' = if owner = some s then n else 0) (ok : LocalOk memNum l') :
    Inv memNum ⟨{ g with used := sub64 g.used n, grants := grants }, pre ++ l' :: post⟩ := by
  obtain ⟨total, sums, same⟩ := putBack_spec put
  have used := inv.used
  have room := inv.room
  dsimp only at used room
  have less : sub64 g.used n = g.used - n := by
    rw [sub64]
    omega
  apply inv.next
  · intro grant member
    have erased : { grant with left := 0 } ∈ grants.map fun grant => { grant with left := 0 } :=
      List.mem_map_of_mem member
    rw [same] at erased
    obtain ⟨grant', member', equal⟩ := List.mem_map.mp erased
    have range := inv.grants grant' member'
    simp only [Grant.mk.injEq] at equal
    obtain ⟨_, levelNum, min, max, before, value, _⟩ := equal
    rw [levelNum, min, max, before, value] at range
    exact range
  · dsimp only
    omega
  · dsimp only
    omega
  · intro s m before
    dsimp only
    rw [before, own s, ← sums s, sum]
    congr 1
    simp only [owes]
    omega
  · exact ok

def Kept (memNum : Nat) (c : Config (MemManager S) (Local S)) : Prop :=
  UpToDate memNum c.shared.grants → Inv memNum c

/-- A step under which each exchange is up to date keeps the sums. -/
theorem step_keeps (word : memNum < 18446744073709551616) {parts : List Nat}
    (inv : Inv memNum ⟨g, pre ++ l :: post⟩) (acted : step memNum parts g l = some (g', l'))
    (current : UpToDate memNum g'.grants) : Inv memNum ⟨g', pre ++ l' :: post⟩ := by
  have ok : LocalOk memNum l := inv.locals l (by simp)
  cases l with
  | charge s min max =>
    obtain ⟨le, small⟩ := ok
    cases acted
    apply inv.memUsed
    · intro n before
      rw [add64, before, enter_owes s small, if_pos rfl]
      simp only [owes]
      omega
    · intro s' other
      rw [enter_owes s' small, if_neg fun same => other (Option.some.inj same).symm]
      rfl
    · exact enter_ok le small
  | check owner levelNum min max =>
    obtain ⟨le, small, level⟩ := ok
    rw [step] at acted
    by_cases free : g.used ≤ sub64 (levelOf memNum levelNum) min
    · rw [if_pos free] at acted
      cases acted
      exact inv.keep (fun s => rfl) ⟨le, small, level⟩
    · rw [if_neg free] at acted
      cases acted
      apply inv.keep
      · intro s
        exact leave_owes s small (Nat.zero_le _)
      · exact leave_ok owner max none
  | read owner levelNum min max =>
    obtain ⟨le, small, level⟩ := ok
    cases acted
    exact inv.keep (fun s => rfl) ⟨le, small, level, inv.room, rfl⟩
  | swap owner levelNum min max u64 u64Tmp =>
    obtain ⟨le, small, level, _⟩ := ok
    rw [step] at acted
    by_cases same : g.used = u64
    · rw [if_pos same] at acted
      cases acted
      exact swap_keeps word inv same (current _ List.mem_cons_self)
    · rw [if_neg same] at acted
      cases acted
      exact inv.keep (fun s => rfl) ⟨le, small, level⟩
  | refund s n got =>
    have small : n < 18446744073709551616 := ok
    cases acted
    apply inv.memUsed
    · intro m before
      rw [sub64, before]
      simp only [owes, if_true]
      omega
    · intro s' other
      exact (if_neg (Ne.symm other)).symm
    · trivial
  | release owner n =>
    rw [step] at acted
    by_cases sum : parts.sum = n
    · rw [if_pos sum] at acted
      obtain ⟨grants, put, same⟩ := Option.map_eq_some_iff.mp acted
      cases same
      apply release_keeps inv sum put
      · intro s
        cases owner with
        | none => rfl
        | some s' => simp only [behindPut, owes, Option.some.injEq]
      · cases owner with
        | none => trivial
        | some s' => exact ok
    · rw [if_neg sum] at acted
      cases acted
  | giveBack s n =>
    have small : n < 18446744073709551616 := ok
    cases acted
    apply inv.memUsed
    · intro m before
      rw [sub64, before]
      simp only [owes, if_true]
      omega
    · intro s' other
      exact (if_neg (Ne.symm other)).symm
    · trivial
  | done got => cases acted

theorem Inv.enters {ls : List (Local S)} (inv : Inv memNum ⟨g, ls⟩) (none' : ∀ s, owes s l = 0)
    (ok : LocalOk memNum l) : Inv memNum ⟨g, ls ++ [l]⟩ := by
  refine ⟨inv.grants, inv.used, inv.room, ?_, ?_⟩
  · intro s
    have before := inv.streams s
    rw [total_start (owes s) g g, none' s]
    exact before
  · exact forall_start inv.locals ok fun l kept => kept

theorem start_keeps {e : Request S} {ls : List (Local S)} (inv : Inv memNum ⟨g, ls⟩)
    (entered : start memNum e g = some (g', l)) : Inv memNum ⟨g', ls ++ [l]⟩ := by
  cases e with
  | get levelNum min max =>
    rw [start] at entered
    split at entered
    · rename_i range
      cases entered
      apply inv.enters
      · intro s
        exact enter_owes s range.2
      · exact enter_ok range.1 range.2
    · cases entered
  | put n =>
    rw [start] at entered
    split at entered
    · rename_i small
      cases entered
      exact inv.enters (fun s => rfl) small
    · cases entered
  | streamGet s min max =>
    rw [start] at entered
    split at entered
    · rename_i range
      cases entered
      exact inv.enters (fun s => rfl) range
    · cases entered
  | streamPut s n =>
    rw [start] at entered
    split at entered
    · rename_i small
      cases entered
      exact inv.enters (fun s => rfl) small
    · cases entered

omit [DecidableEq S] in
theorem start_grants {e : Request S} (entered : start memNum e g = some (g', l)) : g' = g := by
  cases e with
  | get levelNum min max | streamGet s min max =>
    rw [start] at entered
    split at entered
    all_goals cases entered
    rfl
  | put n | streamPut s n =>
    rw [start] at entered
    split at entered
    all_goals cases entered
    rfl

/-- The grants of a state are those of the later ones, up to what is left of them. -/
theorem step_grants {parts : List Nat} (acted : step memNum parts g l = some (g', l'))
    (current : UpToDate memNum g'.grants) : UpToDate memNum g.grants := by
  cases l with
  | swap owner levelNum min max u64 u64Tmp =>
    rw [step] at acted
    split at acted
    · cases acted
      intro grant member
      exact current grant (List.mem_cons_of_mem _ member)
    · cases acted
      exact current
  | release owner n =>
    rw [step] at acted
    split at acted
    · obtain ⟨grants, put, same⟩ := Option.map_eq_some_iff.mp acted
      cases same
      intro grant member
      have erased : { grant with left := 0 } ∈ g.grants.map fun grant =>
          { grant with left := 0 } := List.mem_map_of_mem member
      rw [← (putBack_spec put).2.2] at erased
      obtain ⟨grant', member', equal⟩ := List.mem_map.mp erased
      have range := current grant' member'
      simp only [Grant.mk.injEq] at equal
      obtain ⟨_, levelNum, min, _, before, _⟩ := equal
      rw [levelNum, min, before] at range
      exact range
    · cases acted
  | check owner levelNum min max =>
    rw [step] at acted
    split at acted
    · cases acted
      exact current
    · cases acted
      exact current
  | charge s min max =>
    cases acted
    exact current
  | read owner levelNum min max =>
    cases acted
    exact current
  | refund s n got =>
    cases acted
    exact current
  | giveBack s n =>
    cases acted
    exact current
  | done got => cases acted

end steps

/-- The limit holds, and the counters are right, when no exchange succeeds on a value that has
left the range of the first read. -/
theorem quota_iff (word : memNum < 18446744073709551616)
    {c : Config (MemManager S) (Local S)} (run : (protocol memNum).Reaches fresh c) :
    Sound memNum c ↔ UpToDate memNum c.shared.grants := by
  constructor
  · intro sound grant member
    have range := sound.grants grant member
    omega
  · have inv : Kept memNum c := by
      refine Program.Reaches.invariant ?_ ?_ ?_ run
      · intro _
        refine ⟨by simp [fresh], rfl, (by decide : 0 < 18446744073709551616), ?_, by simp [fresh]⟩
        intro s
        rfl
      · intro e g g' l ls ih entered current
        have same := start_grants entered
        subst same
        exact start_keeps (ih current) entered
      · intro parts g g' l l' pre post ih acted current
        exact step_keeps word (ih (step_grants acted current)) acted current
    intro current
    exact (inv current).sound

end

/-- A stream gets a hundred bytes. -/
theorem quota_grant : ∃ c : Config (MemManager Unit) (Local Unit),
    (protocol 1600).Reaches fresh c ∧
      c.shared.grants = [⟨some (), 0, 10, 100, 0, 100, 100⟩] ∧ Sound 1600 c := by
  have ran : (((protocol (S := Unit) 1600).exec (fun _ => True)
      (.inl (.streamGet () 10 100) :: Program.turns 0 4 []) fresh).map fun c =>
        c.shared.grants) = some [⟨some (), 0, 10, 100, 0, 100, 100⟩] := rfl
  obtain ⟨c, ran, grants⟩ := Option.map_eq_some_iff.mp ran
  have run := (Program.exec_reaches ran).reaches
  refine ⟨c, run, grants, (quota_iff (by decide) run).mpr ?_⟩
  rw [grants]
  intro grant member
  cases List.mem_singleton.mp member
  decide

/-- Between the reads of one call another one gets memory. -/
theorem quota_race : ∃ c : Config (MemManager Unit) (Local Unit),
    (protocol 1600).Reaches fresh c ∧ ¬ Sound 1600 c := by
  have ran : (((protocol (S := Unit) 1600).exec (fun _ => True)
      (List.flatten [[.inl (.get 0 1000 1000), .inl (.get 0 800 800), .inr (0, [])],
        Program.turns 1 3 [], Program.turns 0 2 []]) fresh).map fun c =>
        c.shared.grants) = some [⟨none, 0, 1000, 1000, 800, 800, 800⟩,
          ⟨none, 0, 800, 800, 0, 800, 800⟩] := rfl
  obtain ⟨c, ran, grants⟩ := Option.map_eq_some_iff.mp ran
  refine ⟨c, (Program.exec_reaches ran).reaches, ?_⟩
  intro sound
  have range := sound.grants ⟨none, 0, 1000, 1000, 800, 800, 800⟩ (by rw [grants]; simp)
  exact absurd range.1 (by decide)

end MoonInWater.Session.Quota
