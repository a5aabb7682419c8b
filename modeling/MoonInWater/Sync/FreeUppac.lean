import MoonInWater.Sync.QueryFlags
import MoonInWater.Sync.QueueCount

/-! What becomes of the update packets that entity_coming_update, update_loop and _recv_query_ack
take out of the queue. -/
namespace MoonInWater.Sync.FreeUppac
open CInt Chain DList Fuel UpdateQueue QueryFlags QueueCount
variable {P V : Type} [DecidableEq P]

section code
-- what dlist_next reads from a packet that has been freed
variable (stale : P → Option P)

/-- free_uppac, with the packets freed so far; of NULL it reads a field. -/
def freeUppac (freed : List P) (uppac : Option P) : Option (List P) := uppac.map (· :: freed)

def dlistNext (links : P → Link P) (freed : List P) (p : P) : Option P :=
  if p ∈ freed then stale p else (links p).next

/-- The loop over p_del_uppacs, which the three functions have alike, with the packets freed and
p_uppac. It frees the element behind the one it stands at. -/
def freeLoop (links : P → Link P) : Nat → List P → Option P → Option P →
    Option (List P × Option P)
  | _, freed, uppac, none => some (freed, uppac)
  | 0, _, _, some _ => none
  | fuel + 1, freed, _, some del =>
    let next := dlistNext stale links freed del
    (freeUppac freed next).bind fun freed => freeLoop links fuel freed (some del) next

-- the field `version` of the versions
variable (version : V → Int)

/-- entity_coming_update with the packets freed: `fromVersion` is in the head of the packet,
unless that is an error, and `uppac` is what malloc_uppac returns. -/
def entityComingUpdate (fromVersion : Option Int) (uppac : Option P) (e : ShadowEntity P V)
    (fuel : Nat) : Option (ShadowEntity P V × List P) :=
  match fromVersion, uppac with
  | some fromVersion, some uppac =>
    let coming := QueryFlags.entityComingUpdate version fromVersion uppac e
    (freeLoop stale coming.1.queue.links fuel [] none coming.2.2).map fun freed =>
      (coming.1, freed.1)
  | _, _ => some (e, [])

/-- What a turn of update_loop meets: the entity when its mutex is taken first, what
_create_new_version makes, and the entity when its mutex is taken again. -/
structure Turn (P V : Type) where
  first : ShadowEntity P V
  created : Option V
  second : ShadowEntity P V

/-- The rest of a turn that has taken `uppac` out, with the packets freed. That
_create_new_version fails is not seen, and p_new_version has no value then. -/
def updateTurn [DecidableEq V] (uppac : Option P) (base : V) (t : Turn P V) (fuel : Nat) :
    Option (ShadowEntity P V × List P) :=
  t.created.bind fun new =>
    (updateLoopAdd version fuel base new t.second).bind fun added =>
      (freeLoop stale added.1.queue.links fuel [] uppac added.2).bind fun looped =>
        (freeUppac looped.1 looped.2).map fun freed => (added.1, freed)

/-- _recv_query_ack with the packets freed. -/
def recvQueryAck (reply : Reply V) (base : V) (lastUpId : Int) (e : ShadowEntity P V)
    (fuel : Nat) : Option (ShadowEntity P V × List P) :=
  (QueryFlags.recvQueryAck version fuel reply base lastUpId e).bind fun acked =>
    (freeLoop stale acked.1.queue.links fuel [] none acked.2.2).map fun freed =>
      (acked.1, freed.1)

end code

/-- The packets of a queue and those brought to it are the ones let go and the ones that stay. -/
def LetsGo (brought : List P) (before after : PacketQueue P) (gone : List P) : Prop :=
  ∃ l l', Holds before l ∧ Holds after l' ∧ (brought ++ l).Perm (gone ++ l')

/-- A call on a shadow entity, with what its environment answers. -/
inductive Call (P V : Type) where
  | entityComingUpdate (fromVersion : Option Int) (uppac : Option P) (e : ShadowEntity P V)
  | updateLoop (turns : List (Turn P V))
  | recvQueryAck (reply : Reply V) (base : V) (lastUpId : Int) (e : ShadowEntity P V)

/-- The queues are lists, and a packet that comes is a new element. -/
def Listed : Call P V → Prop
  | .entityComingUpdate _ uppac e =>
    ∃ l, Holds e.queue l ∧ ∀ p ∈ uppac, p ∉ l ∧ e.queue.links p = loose
  | .updateLoop turns => ∀ t ∈ turns, (∃ l, Holds t.first.queue l) ∧ ∃ l, Holds t.second.queue l
  | .recvQueryAck _ _ _ e => ∃ l, Holds e.queue l

section
variable [DecidableEq V] (stale : P → Option P) (version : V → Int)

/-- The turns of an update_loop come to their ends, and each has freed what it has let go. -/
def LoopFrees : List (Turn P V) → Prop
  | [] => True
  | t :: turns =>
    let first := updateLoop version t.first
    ∃ gone, LetsGo [] t.first.queue first.1.queue gone ∧
      if first.2.1 ≠ updateing then gone = []
      else
        (∃ e freed gone', Returns (updateTurn stale version first.2.2.1 first.2.2.2 t) (e, freed) ∧
          LetsGo [] t.second.queue e.queue gone' ∧ freed.Perm (gone ++ gone')) ∧
        LoopFrees turns

/-- The call returns, and it has freed each packet that it has let go once, and no other. -/
def Frees : Call P V → Prop
  | .entityComingUpdate fromVersion uppac e => ∃ e' freed,
      Returns (entityComingUpdate stale version fromVersion uppac e) (e', freed) ∧
        LetsGo (if fromVersion = none then [] else uppac.toList) e.queue e'.queue freed
  | .updateLoop turns => LoopFrees stale version turns
  | .recvQueryAck reply base lastUpId e => ∃ e' freed,
      Returns (recvQueryAck stale version reply base lastUpId e) (e', freed) ∧
        LetsGo [] e.queue e'.queue freed

/-- The turns up to the one that finds no update create versions that come too late. -/
def LoopAddsNone : List (Turn P V) → Prop
  | [] => True
  | t :: turns =>
    ¬ IsEntityClosed t.first → CanStartUpdate version t.first →
      (t.created ≠ none ∧
        (IsEntityClosed t.second ∨ t.second.versionHead ≠ t.first.versionHead)) ∧
      LoopAddsNone turns

/-- An update packet comes in time, to a queue that takes it and drops none. -/
def Room (fromVersion : Int) (e : ShadowEntity P V) : Prop :=
  version e.versionHead ≤ fromVersion ∧
    (fromVersion ≤ u32 e.lastBigestVersion → e.queue.upTail = none) ∧
    e.queryStatus < clientMaxVersionNum

/-- The answer to a query drops no packet. -/
def Spares (reply : Reply V) (base : V) (lastUpId : Int) (e : ShadowEntity P V) : Prop :=
  match reply with
  | .error | .createFailed => True
  | .newest => lastUpId = e.packetId → e.queue.upTail = none
  | .update new =>
    if version e.versionHead < version new then
      ∀ p ∈ e.queue.upTail, i32 (version new) ≤ (e.queue.packets p).version
    else version new ≤ version base → e.queue.upTail = none

/-- The call has no packet to drop. -/
def DropsNone : Call P V → Prop
  | .entityComingUpdate fromVersion uppac e => ∀ v ∈ fromVersion, uppac ≠ none →
      ¬ IsEntityClosed e ∧ e.isShadow = true ∧ Room version v e
  | .updateLoop turns => LoopAddsNone version turns
  | .recvQueryAck reply base lastUpId e => ¬ IsEntityClosed e →
      Spares version reply base lastUpId e

end

section loops
variable {stale : P → Option P} {links : P → Link P} {version : V → Int} {e e' : ShadowEntity P V}
variable {l k : List P} {fromVersion : Int} {uppac : P}

/-- The last element of a list is followed by NULL, which is passed to free_uppac. -/
theorem freeLoop_some (stale : P → Option P) (links : P → Link P) (fuel : Nat) (freed : List P)
    (uppac : Option P) (del : P) : freeLoop stale links fuel freed uppac (some del) = none := by
  induction fuel generalizing freed uppac del with
  | zero => rfl
  | succ fuel ih =>
    rw [freeLoop]
    cases dlistNext stale links freed del with
    | none => rfl
    | some next => exact ih (next :: freed) (some del) next

theorem freeLoop_none (stale : P → Option P) (links : P → Link P) (fuel : Nat) (freed : List P)
    (uppac : Option P) : freeLoop stale links fuel freed uppac none = some (freed, uppac) := by
  cases fuel <;> rfl

theorem freeLoop_eq_some {fuel : Nat} {freed : List P} {uppac del : Option P}
    {result : List P × Option P} (ran : freeLoop stale links fuel freed uppac del = some result) :
    del = none ∧ result = (freed, uppac) := by
  cases del with
  | none =>
    rw [freeLoop_none] at ran
    exact ⟨rfl, (Option.some.inj ran).symm⟩
  | some del =>
    rw [freeLoop_some] at ran
    contradiction

theorem comingPacket_spec (version : V → Int) (fromVersion : Int) (holds : Holds e.queue l)
    (isolated : e.queue.links uppac = loose) (fresh : uppac ∉ l) :
    ((comingPacket version fromVersion uppac e).2 = none ↔ Room version fromVersion e) ∧
      (Room version fromVersion e →
        Holds (comingPacket version fromVersion uppac e).1.queue (uppac :: l)) := by
  have ends : e.queue.upTail = none ↔ e.queue.upHead = none := by
    rw [holds.tail, holds.head, List.getLast?_eq_none_iff, List.head?_eq_none_iff]
  let packets := Function.update e.queue.packets uppac ⟨u64 (e.packetId + 1), 0⟩
  by_cases late : version e.versionHead ≤ fromVersion
  · by_cases back : fromVersion ≤ u32 e.lastBigestVersion
    · have early : ¬ fromVersion < version e.versionHead := Int.not_lt.mpr late
      have emptied : Holds ⟨none, none, 0, e.queue.links, packets⟩ [] := ⟨trivial, rfl, rfl⟩
      obtain ⟨q', out, ran, left, -, room⟩ :=
        insertNewPacket_spec emptied isolated List.not_mem_nil e.queryStatus
      have result : (comingPacket version fromVersion uppac e).2 = out.or e.queue.upHead ∧
          (out = none → (comingPacket version fromVersion uppac e).1.queue = q') := by
        simp only [comingPacket, if_pos back, if_neg early, if_pos late, delAllPacket,
          mallocUppac, ran, packets]
        cases out with
        | none => exact ⟨rfl, fun _ => rfl⟩
        | some p => exact ⟨rfl, fun wrong => by cases wrong⟩
      constructor
      · rw [result.1, Option.or_eq_none_iff, room, ← ends]
        constructor
        · rintro ⟨below, nothing⟩
          exact ⟨late, fun _ => nothing, below⟩
        · rintro ⟨-, nothing, below⟩
          exact ⟨below, nothing back⟩
      · rintro ⟨-, nothing, below⟩
        rw [if_neg (Int.not_le.mpr below)] at left
        have whole : l = [] := List.getLast?_eq_none_iff.mp (holds.tail.symm.trans (nothing back))
        rw [result.2 (room.mpr below), whole]
        exact left
    · have kept : Holds { e.queue with packets := packets } l :=
        ⟨holds.linked, holds.head, holds.tail⟩
      obtain ⟨q', out, ran, left, -, room⟩ := insertNewPacket_spec kept isolated fresh e.queryStatus
      have result : (comingPacket version fromVersion uppac e).2 = out.or none ∧
          (out = none → (comingPacket version fromVersion uppac e).1.queue = q') := by
        simp only [comingPacket, if_neg back, if_pos late, mallocUppac, ran, packets]
        cases out with
        | none => exact ⟨rfl, fun _ => rfl⟩
        | some p => exact ⟨rfl, fun wrong => by cases wrong⟩
      constructor
      · rw [result.1, Option.or_none, room]
        constructor
        · exact fun below => ⟨late, fun wrong => absurd wrong back, below⟩
        · exact fun room => room.2.2
      · rintro ⟨-, -, below⟩
        rw [if_neg (Int.not_le.mpr below)] at left
        rw [result.2 (room.mpr below)]
        exact left
  · have drops : (comingPacket version fromVersion uppac e).2 = some uppac := by
      unfold comingPacket
      by_cases back : fromVersion ≤ u32 e.lastBigestVersion
      · simp only [if_pos back, if_pos (Int.not_le.mp late), ShadowEntity.set, if_neg late]
      · simp only [if_neg back, if_neg late]
    constructor
    · rw [drops]
      exact iff_of_false (Option.some_ne_none uppac) fun room => late room.1
    · exact fun room => absurd room.1 late

omit [DecidableEq P] in
theorem startTask_queue (e : ShadowEntity P V) : (startTask version e).1.queue = e.queue := by
  unfold startTask
  split
  · split
    · rfl
    · split <;> rfl
  · rfl

omit [DecidableEq P] in
theorem startAfterAck_queue (ret : Int) (isNewest : Bool) (lastUpId : Int)
    (e : ShadowEntity P V) : (startAfterAck version ret isNewest lastUpId e).1.queue = e.queue := by
  unfold startAfterAck
  split
  · split
    · rfl
    · split <;> rfl
  · rfl

omit [DecidableEq P] in
/-- A queue that stays as it is lets nothing go. -/
theorem LetsGo.same {q : PacketQueue P} (holds : Holds q l) : LetsGo [] q q [] :=
  ⟨l, l, holds, holds, .refl l⟩

omit [DecidableEq P] in
/-- A packet can not be neither freed nor put in. -/
theorem LetsGo.lost {q : PacketQueue P} (lost : LetsGo [uppac] q q []) : False := by
  obtain ⟨l, l', holds, holds', perm⟩ := lost
  cases holds.unique holds'
  have lengths := perm.length_eq
  simp at lengths

theorem entityComingUpdate_frees (holds : Holds e.queue l) (isolated : e.queue.links uppac = loose)
    (fresh : uppac ∉ l) :
    (∃ e' freed, Returns (entityComingUpdate stale version (some fromVersion) (some uppac) e)
      (e', freed) ∧ LetsGo [uppac] e.queue e'.queue freed) ↔
      ¬ IsEntityClosed e ∧ e.isShadow = true ∧ Room version fromVersion e := by
  obtain ⟨room, stays⟩ := comingPacket_spec version fromVersion holds isolated fresh
  by_cases refused : IsEntityClosed e ∨ e.isShadow = false
  · have kept : ∀ fuel, entityComingUpdate stale version (some fromVersion) (some uppac) e fuel =
        some (e, []) := by
      intro fuel
      simp only [entityComingUpdate, QueryFlags.entityComingUpdate, if_pos refused, freeLoop_none,
        Option.map_some]
    constructor
    · rintro ⟨e', freed, returns, gone⟩
      cases returns.unique (.of_eq kept)
      exact gone.lost.elim
    · rintro ⟨opened, shadow, -⟩
      rcases refused with closed | other
      · exact absurd closed opened
      · exact absurd (shadow.symm.trans other) (by decide)
  · obtain ⟨opened, shadow⟩ := not_or.mp refused
    let e₁ := (startTask version (comingPacket version fromVersion uppac e).1).1
    have queue : e₁.queue = (comingPacket version fromVersion uppac e).1.queue :=
      startTask_queue ..
    have frees : ∀ fuel, entityComingUpdate stale version (some fromVersion) (some uppac) e fuel =
        (freeLoop stale e₁.queue.links fuel [] none
          (comingPacket version fromVersion uppac e).2).map fun freed => (e₁, freed.1) := by
      intro fuel
      simp only [entityComingUpdate, QueryFlags.entityComingUpdate, if_neg refused, e₁]
    constructor
    · rintro ⟨e', freed, ⟨n, returns⟩, -⟩
      have ran := returns (n + 1) (Nat.lt_succ_self n)
      rw [frees] at ran
      obtain ⟨_, looped, -⟩ := Option.map_eq_some_iff.mp ran
      refine ⟨opened, Bool.eq_true_of_not_eq_false shadow, room.mp (freeLoop_eq_some looped).1⟩
    · rintro ⟨-, -, taken⟩
      refine ⟨e₁, [], .of_eq fun fuel => ?_, l, uppac :: l, holds, ?_, .refl _⟩
      · rw [frees, room.mpr taken, freeLoop_none, Option.map_some]
      · rw [queue]
        exact stays taken

/-- The turn frees the packet it has taken when its version comes too late. -/
theorem updateTurn_frees [DecidableEq V] {base : V} {t : Turn P V} (created : t.created ≠ none)
    (late : IsEntityClosed t.second ∨ t.second.versionHead ≠ base) :
    Returns (updateTurn stale version (some uppac) base t) (t.second, [uppac]) := by
  refine .of_eq fun fuel => ?_
  obtain ⟨new, made⟩ := Option.ne_none_iff_exists'.mp created
  have skipped : ¬ (¬ IsEntityClosed t.second ∧ t.second.versionHead = base) := by
    rintro ⟨opened, same⟩
    exact late.elim opened fun other => other same
  simp only [updateTurn, made, updateLoopAdd, if_neg skipped, Option.bind_some, freeLoop_none,
    freeUppac, Option.map_some]

/-- Otherwise the version to be added is NULL. -/
theorem updateTurn_adds [DecidableEq V] {base : V} {t : Turn P V}
    (early : ¬ (t.created ≠ none ∧ (IsEntityClosed t.second ∨ t.second.versionHead ≠ base)))
    (uppac : Option P) (fuel : Nat) : updateTurn stale version uppac base t fuel = none := by
  cases made : t.created with
  | none => simp only [updateTurn, made, Option.bind_none]
  | some new =>
    have adds : ¬ IsEntityClosed t.second ∧ t.second.versionHead = base := by
      constructor
      · exact fun closed => early ⟨by rw [made]; exact Option.some_ne_none new, .inl closed⟩
      · by_contra other
        exact early ⟨by rw [made]; exact Option.some_ne_none new, .inr other⟩
    simp only [updateTurn, made, updateLoopAdd, if_pos adds, addVersion, addVersionToEntity,
      Option.map_none, Option.bind_none, Option.bind_some]

/-- The first section of a turn that finds an update. -/
theorem updateLoop_takes (holds : Holds e.queue l) (opened : ¬ IsEntityClosed e)
    (starts : CanStartUpdate version e) : ∃ q k p, l = k ++ [p] ∧ Holds q k ∧
      updateLoop version e = ({ e with queue := q }, updateing, some p, e.versionHead) := by
  obtain ⟨p, tail, number⟩ := starts
  obtain ⟨k, rfl⟩ := List.getLast?_eq_some_iff.mp (holds.tail.symm.trans tail)
  obtain ⟨q, taken, left, -⟩ := getTailPacket_spec holds
  refine ⟨q, k, p, rfl, left, ?_⟩
  have starts : CanStartUpdate version e := ⟨p, tail, number⟩
  simp only [updateLoop, if_neg opened, if_pos starts, taken]

theorem updateLoop_leaves (stops : ¬ (¬ IsEntityClosed e ∧ CanStartUpdate version e)) :
    (updateLoop version e).1.queue = e.queue ∧ (updateLoop version e).2.1 ≠ updateing := by
  have zero : (0 : Nat) ≠ updateing := by decide
  have asks : querying ≠ updateing := by decide
  by_cases closed : IsEntityClosed e
  · simp only [updateLoop, if_pos closed]
    exact ⟨trivial, zero⟩
  · have idle : ¬ CanStartUpdate version e := fun starts => stops ⟨closed, starts⟩
    simp only [updateLoop, if_neg closed, if_neg idle]
    split
    · exact ⟨rfl, asks⟩
    · exact ⟨rfl, zero⟩

theorem loopFrees_iff [DecidableEq V] {turns : List (Turn P V)}
    (listed : Listed (.updateLoop turns)) :
    LoopFrees stale version turns ↔ LoopAddsNone version turns := by
  induction turns with
  | nil => rfl
  | cons t turns ih =>
    obtain ⟨⟨⟨l, holds⟩, m, holds'⟩, rest⟩ := List.forall_mem_cons.mp listed
    have more := ih rest
    by_cases starts : ¬ IsEntityClosed t.first ∧ CanStartUpdate version t.first
    · obtain ⟨q, k, p, rfl, left, first⟩ := updateLoop_takes holds starts.1 starts.2
      simp only [LoopFrees, LoopAddsNone, first, ne_eq, not_true_eq_false, if_false]
      constructor
      · rintro ⟨gone, -, ⟨e, freed, gone', ⟨n, returns⟩, -⟩, loops⟩ - -
        refine ⟨?_, more.mp loops⟩
        by_contra early
        have ran := returns (n + 1) (Nat.lt_succ_self n)
        rw [updateTurn_adds early] at ran
        contradiction
      · intro clean
        obtain ⟨⟨created, late⟩, loops⟩ := clean starts.1 starts.2
        have perm : (k ++ [p]).Perm ([p] ++ k) := List.perm_append_comm
        refine ⟨[p], ⟨k ++ [p], k, holds, left, perm⟩, ?_, more.mpr loops⟩
        exact ⟨t.second, [p], [], updateTurn_frees created late, .same holds', .refl _⟩
    · obtain ⟨queue, stops⟩ := updateLoop_leaves starts
      simp only [LoopFrees, LoopAddsNone, queue, if_pos stops]
      constructor
      · intro _ opened starts'
        exact absurd ⟨opened, starts'⟩ starts
      · intro _
        exact ⟨[], .same holds, rfl⟩

omit [DecidableEq P] in
theorem Holds.empty_iff {q : PacketQueue P} (holds : Holds q l) : q.upTail = none ↔ l = [] := by
  rw [holds.tail, List.getLast?_eq_none_iff]

omit [DecidableEq P] in
theorem Holds.upHead_none {q : PacketQueue P} (holds : Holds q l) :
    q.upHead = none ↔ q.upTail = none := by
  rw [Holds.empty_iff holds, holds.head, List.head?_eq_none_iff]

/-- del_old_packet takes nothing out when the oldest packet is new enough. -/
theorem delOldPacket_none {q : PacketQueue P} (holds : Holds q l) (oldValue : Int) :
    ∃ q' out, Returns (delOldPacket · oldValue q) (q', out) ∧
      (out = none ↔ ∀ p ∈ q.upTail, oldValue ≤ (q.packets p).version) ∧
      (out = none → Holds q' l) := by
  obtain ⟨q', out, ran, left, -, first, -⟩ := delOldPacket_spec holds oldValue
  have parts : l.rdropWhile (older q oldValue) ++ l.rtakeWhile (older q oldValue) = l :=
    List.rdropWhile_append_rtakeWhile
  have none : out = none ↔ l.rtakeWhile (older q oldValue) = [] := by
    rw [first, List.head?_eq_none_iff]
  refine ⟨q', out, ran, none.trans ?_, fun nothing => ?_⟩
  · rw [List.rtakeWhile_eq_nil_iff, holds.tail]
    constructor
    · intro kept p last
      have nonempty : l ≠ [] := List.ne_nil_of_mem (List.mem_of_getLast? last)
      have same : l.getLast nonempty = p := by
        rw [List.getLast?_eq_some_getLast nonempty] at last
        exact Option.some.inj last
      have young := kept nonempty
      rw [same, older, decide_eq_true_eq] at young
      exact Int.not_lt.mp young
    · intro young nonempty old
      have last := young (l.getLast nonempty) (List.getLast?_eq_some_getLast nonempty)
      exact Int.not_lt.mpr last (of_decide_eq_true old)
  · rw [none.mp nothing, List.append_nil] at parts
    rwa [parts] at left

/-- The packets that an answer takes out of the queue. -/
theorem takeReply_spec (version : V → Int) (reply : Reply V) (base : V) (lastUpId : Int)
    (holds : Holds e.queue l) :
    ∃ e₁ isNewest del, Returns (fun fuel => takeReply version fuel reply base lastUpId e)
        (e₁, isNewest, del) ∧ (del = none ↔ Spares version reply base lastUpId e) ∧
      (del = none → Holds e₁.queue l) := by
  have all : e.queue.upHead = none → Holds (delAllPacket e.queue).1 l := by
    intro none
    rw [(Holds.empty_iff holds).mp ((Holds.upHead_none holds).mp none)]
    exact ⟨trivial, rfl, rfl⟩
  cases reply with
  | error => exact ⟨e, false, none, .pure _, iff_of_true rfl trivial, fun _ => holds⟩
  | createFailed => exact ⟨e, false, none, .pure _, iff_of_true rfl trivial, fun _ => holds⟩
  | newest =>
    by_cases drops : lastUpId = e.packetId ∧ e.queue.upTail ≠ none
    · refine ⟨{ e with queue := (delAllPacket e.queue).1 }, true, e.queue.upHead, .of_eq ?_, ?_,
        all⟩
      · intro fuel
        simp only [takeReply, if_pos drops, delAllPacket]
      · rw [Holds.upHead_none holds]
        exact iff_of_false drops.2 fun spares => drops.2 (spares drops.1)
    · refine ⟨e, true, none, .of_eq ?_, iff_of_true rfl ?_, fun _ => holds⟩
      · intro fuel
        simp only [takeReply, if_neg drops]
      · intro last
        by_contra some
        exact drops ⟨last, some⟩
  | update new =>
    by_cases newer : version e.versionHead < version new
    · obtain ⟨q', out, ran, kept, left⟩ := delOldPacket_none holds (i32 (version new))
      refine ⟨{ e with versionHead := new, queue := q' }, false, out, ran.imp ?_, ?_, left⟩
      · intro fuel deleted
        simp only [takeReply, if_pos newer, addVersion, addVersionToEntity, Option.map_some,
          Option.bind_some, deleted]
      · rw [kept, Spares, if_pos newer]
    · by_cases back : version new ≤ version base
      · refine ⟨{ e with versionHead := new, queue := (delAllPacket e.queue).1 }, false,
          e.queue.upHead, .of_eq ?_, ?_, all⟩
        · intro fuel
          simp only [takeReply, if_neg newer, if_pos back, delAllPacket]
        · rw [Holds.upHead_none holds, Spares, if_neg newer]
          exact ⟨fun none _ => none, fun spares => spares back⟩
      · refine ⟨e, true, none, .of_eq ?_, iff_of_true rfl ?_, fun _ => holds⟩
        · intro fuel
          simp only [takeReply, if_neg newer, if_neg back]
        · rw [Spares, if_neg newer]
          exact fun wrong => absurd wrong back

theorem recvQueryAck_frees (reply : Reply V) (base : V) (lastUpId : Int)
    (holds : Holds e.queue l) :
    (∃ e' freed, Returns (recvQueryAck stale version reply base lastUpId e) (e', freed) ∧
      LetsGo [] e.queue e'.queue freed) ↔
      (¬ IsEntityClosed e → Spares version reply base lastUpId e) := by
  by_cases closed : IsEntityClosed e
  · refine iff_of_true ⟨e, [], .of_eq fun fuel => ?_, .same holds⟩ (absurd closed)
    simp only [recvQueryAck, QueryFlags.recvQueryAck, if_pos closed, Option.bind_some,
      freeLoop_none, Option.map_some]
  · obtain ⟨e₁, isNewest, del, taken, spares, stays⟩ :=
      takeReply_spec version reply base lastUpId holds
    let e₂ := (startAfterAck version reply.retCode isNewest lastUpId (e₁.clear querying)).1
    have queue : e₂.queue = e₁.queue := startAfterAck_queue ..
    have frees : ∀ fuel, takeReply version fuel reply base lastUpId e = some (e₁, isNewest, del) →
        recvQueryAck stale version reply base lastUpId e fuel =
          (freeLoop stale e₂.queue.links fuel [] none del).map fun freed => (e₂, freed.1) := by
      intro fuel took
      simp only [recvQueryAck, QueryFlags.recvQueryAck, if_neg closed, took, Option.map_some,
        Option.bind_some, e₂]
    constructor
    · rintro ⟨e', freed, ⟨n, returns⟩, -⟩ -
      obtain ⟨k, taken⟩ := taken
      have ran := returns (n + k + 1) (by omega)
      rw [frees (n + k + 1) (taken (n + k + 1) (by omega))] at ran
      obtain ⟨_, looped, -⟩ := Option.map_eq_some_iff.mp ran
      exact spares.mp (freeLoop_eq_some looped).1
    · intro kept
      have nothing := spares.mpr (kept closed)
      refine ⟨e₂, [], taken.imp fun fuel took => ?_, l, l, holds, ?_, .refl l⟩
      · rw [frees fuel took, nothing, freeLoop_none, Option.map_some]
      · rw [queue]
        exact stays nothing

/-- The packets that a call takes out of the queue are freed once each exactly when there are
none, the ones apart that update_loop takes to build a version. -/
theorem frees_iff_dropsNone [DecidableEq V] (stale : P → Option P) (version : V → Int)
    {call : Call P V} (listed : Listed call) :
    Frees stale version call ↔ DropsNone version call := by
  cases call with
  | entityComingUpdate fromVersion uppac e =>
    obtain ⟨l, holds, new⟩ := listed
    cases fromVersion with
    | none =>
      refine iff_of_true ⟨e, [], .of_eq fun _ => rfl, .same holds⟩ ?_
      exact fun v wrong => absurd wrong (Option.not_mem_none v)
    | some fromVersion =>
      cases uppac with
      | none =>
        refine iff_of_true ⟨e, [], .of_eq fun _ => rfl, .same holds⟩ ?_
        exact fun _ _ wrong => absurd rfl wrong
      | some uppac =>
        obtain ⟨fresh, isolated⟩ := new uppac rfl
        refine (entityComingUpdate_frees holds isolated fresh).trans ?_
        constructor
        · rintro clean v ⟨⟩ -
          exact clean
        · exact fun clean => clean fromVersion rfl (Option.some_ne_none uppac)
  | updateLoop turns => exact loopFrees_iff listed
  | recvQueryAck reply base lastUpId e =>
    obtain ⟨l, holds⟩ := listed
    exact recvQueryAck_frees reply base lastUpId holds

end loops

section examples

/-- An entity with versions that are their numbers and the given queue. -/
def exampleEntity (queue : PacketQueue Nat) (versionHead lastBigestVersion : Int) :
    ShadowEntity Nat Int :=
  ⟨0, 1, true, versionHead, 0, queue, lastBigestVersion, 0⟩

def emptyQueue : PacketQueue Nat := empty (fun _ => loose) fun _ => ⟨0, 0⟩

theorem emptyQueue_holds : Holds emptyQueue [] := .empty ..

/-- The first packet that comes stays in the queue, and none is freed. -/
theorem frees_iff_dropsNone_first : Frees (fun _ => none) id
    (.entityComingUpdate (some 5) (some 7) (exampleEntity emptyQueue 5 4)) := by
  have listed : Listed (.entityComingUpdate (some 5) (some 7) (exampleEntity emptyQueue 5 4)) :=
    ⟨[], emptyQueue_holds, fun _ _ => ⟨List.not_mem_nil, rfl⟩⟩
  apply (frees_iff_dropsNone (fun _ => none) id listed).mpr
  rintro v ⟨⟩ -
  exact ⟨by decide, rfl, Int.le_refl 5, fun _ => rfl, by decide⟩

/-- A packet that comes late is refused and not freed: the call never returns, whatever is read
from freed memory. -/
theorem late_packet_not_freed : Listed
      (.entityComingUpdate (some 3) (some 7) (exampleEntity emptyQueue 5 2)) ∧
    ∀ stale, ¬ Frees stale id
      (.entityComingUpdate (some 3) (some 7) (exampleEntity emptyQueue 5 2)) := by
  have listed : Listed (.entityComingUpdate (some 3) (some 7) (exampleEntity emptyQueue 5 2)) :=
    ⟨[], emptyQueue_holds, fun _ _ => ⟨List.not_mem_nil, rfl⟩⟩
  refine ⟨listed, fun stale frees => ?_⟩
  have inTime := (entityComingUpdate_frees emptyQueue_holds rfl List.not_mem_nil).mp frees
  exact absurd inTime.2.2.1 (by decide)

end examples
end MoonInWater.Sync.FreeUppac
