import Mathlib.Data.Int.Bitwise
import MoonInWater.Lib.Threads
import MoonInWater.Sync.UpdateQueue

/-! The flags of query_status in a shadow entity: the sections under version_mutex of
entity_coming_update, update_loop, send_query, querying_close and _recv_query_ack, and the
callers that act on what they return. -/
namespace MoonInWater.Sync.QueryFlags
open CInt Threads Chain DList UpdateQueue

def querying : Nat := 0x1
def canQuery : Nat := 0x2
def updateing : Nat := 0x4

/-- The operator `!`. -/
def not (n : Nat) : Nat := if n = 0 then 1 else 0

/-- shadow_entity_s as to its updates; `V` are its versions. -/
structure ShadowEntity (P V : Type) where
  status : Int
  totalUserNum : Int
  isShadow : Bool
  versionHead : V
  packetId : Int
  queue : PacketQueue P
  lastBigestVersion : Int
  queryStatus : Nat

variable {P V : Type}

def IsEntityClosed (e : ShadowEntity P V) : Prop := e.status < 0 ∧ e.totalUserNum = 0

instance (e : ShadowEntity P V) : Decidable (IsEntityClosed e) := instDecidableAnd

-- the field `version` of the versions
variable (version : V → Int)

/-- CAN_START_UPDATE; the version of the packet is an int. -/
def CanStartUpdate (e : ShadowEntity P V) : Prop :=
  ∃ uppac ∈ e.queue.upTail, u64 (e.queue.packets uppac).version = version e.versionHead

instance (e : ShadowEntity P V) : Decidable (CanStartUpdate version e) := by
  unfold CanStartUpdate
  infer_instance

def CanStartQuery (e : ShadowEntity P V) : Prop :=
  e.queryStatus &&& canQuery = canQuery ∨ e.queue.upTail ≠ none

instance (e : ShadowEntity P V) : Decidable (CanStartQuery e) := by
  unfold CanStartQuery
  infer_instance

def ShadowEntity.set (e : ShadowEntity P V) (flag : Nat) : ShadowEntity P V :=
  { e with queryStatus := e.queryStatus ||| flag }

/-- `query_status &= !flag`. -/
def ShadowEntity.clear (e : ShadowEntity P V) (flag : Nat) : ShadowEntity P V :=
  { e with queryStatus := e.queryStatus &&& not flag }

/-- What entity_coming_update starts, as its return value. -/
def startTask (e : ShadowEntity P V) : ShadowEntity P V × Nat :=
  if e.queryStatus &&& updateing = 0 then
    if CanStartUpdate version e then (e.set updateing, updateing)
    else if CanStartQuery e ∧ e.queryStatus &&& querying = 0 then (e.set querying, querying)
    else (e, 0)
  else (e, 0)

section
variable [DecidableEq P]

/-- The packets of entity_coming_update: a version that does not grow deletes the queue, and
the packet `uppac` is put in or, when it comes late, out. -/
def comingPacket (fromVersion : Int) (uppac : P) (e : ShadowEntity P V) :
    ShadowEntity P V × Option P :=
  let old := version e.versionHead
  let e := { e with packetId := u64 (e.packetId + 1) }
  let new := { mallocUppac 0 fromVersion with id := e.packetId }
  let e := { e with queue.packets := Function.update e.queue.packets uppac new }
  let (e, del) :=
    if fromVersion ≤ u32 e.lastBigestVersion then
      let (queue, del) := delAllPacket e.queue
      let e := { e with queue := queue }
      (if fromVersion < old then e.set canQuery else e, del)
    else (e, none)
  let e := { e with lastBigestVersion := i32 fromVersion }
  if old ≤ fromVersion then
    let (queue, out) := insertNewPacket e.queryStatus uppac e.queue
    match out with
    | none => ({ e with queue := queue }, del)
    | some out =>
      ({ e with queue := { queue with links := dlistInsert del out queue.links } }, some out)
  else ({ e with queue.links := dlistInsert del uppac e.queue.links }, some uppac)

/-- The section of entity_coming_update, with its return value and the packets to be freed. -/
def entityComingUpdate (fromVersion : Int) (uppac : P) (e : ShadowEntity P V) :
    ShadowEntity P V × Nat × Option P :=
  if IsEntityClosed e ∨ e.isShadow = false then (e, 0, none)
  else
    let (e, del) := comingPacket version fromVersion uppac e
    let (e, ret) := startTask version e
    (e, ret, del)

/-- The first section of a turn of update_loop, with `ret_code`, the packet and the base
version. -/
def updateLoop (e : ShadowEntity P V) : ShadowEntity P V × Nat × Option P × V :=
  let base := e.versionHead
  if IsEntityClosed e then (e, 0, none, base)
  else if CanStartUpdate version e then
    let (queue, uppac) := getTailPacket e.queue
    ({ e with queue := queue }, updateing, uppac, base)
  else
    -- the flags are in query_status
    let e := { e with status := Int.land e.status (not updateing) }
    if CanStartQuery e ∧ e.queryStatus &&& querying = 0 then
      (e.set querying, querying, none, base)
    else (e, 0, none, base)

omit [DecidableEq P] in
/-- _add_version_to_entity, which writes to the version that it is given; the one put out at the
other end of the list is no part of the entity here. -/
def addVersionToEntity (new : Option V) (e : ShadowEntity P V) : Option (ShadowEntity P V) :=
  new.map fun new => { e with versionHead := new }

/-- _add_version_to_entity with `given` as the version, and del_old_packet. -/
def addVersion (fuel : Nat) (given : Option V) (new : V) (e : ShadowEntity P V) :
    Option (ShadowEntity P V × Option P) :=
  (addVersionToEntity given e).bind fun e =>
    (delOldPacket fuel (i32 (version new)) e.queue).map fun (queue, del) =>
      ({ e with queue := queue }, del)

/-- The second section of a turn. The new version is given in the place of the key, and NULL in
that of the version. -/
def updateLoopAdd [DecidableEq V] (fuel : Nat) (base new : V) (e : ShadowEntity P V) :
    Option (ShadowEntity P V × Option P) :=
  if ¬ IsEntityClosed e ∧ e.versionHead = base then addVersion version fuel none new e
  else some (e, none)

end

/-- With the base version and the last packet of the query. -/
def sendQuery (e : ShadowEntity P V) : ShadowEntity P V × Option (V × Int) :=
  if IsEntityClosed e then (e, none)
  else (e.clear canQuery, some (e.versionHead, e.packetId))

def queryingClose (e : ShadowEntity P V) : ShadowEntity P V :=
  if IsEntityClosed e then e else e.clear querying

/-- What _recv_query_ack makes of a packet before its section. It tests for codes below zero, and
those that _create_new_version fails with are not. -/
inductive Reply (V : Type) where
  | error
  | createFailed
  | newest
  | update (new : V)

def Reply.retCode : Reply V → Int
  | .error => -1
  | _ => 0

section
variable [DecidableEq P]

/-- The answer to a query put to use, with whether it is the newest version. -/
def takeReply (fuel : Nat) (reply : Reply V) (base : V) (lastUpId : Int) (e : ShadowEntity P V) :
    Option (ShadowEntity P V × Bool × Option P) :=
  match reply with
  | .update new =>
    if version e.versionHead < version new then
      (addVersion version fuel (some new) new e).map fun (e, del) => (e, false, del)
    else if version new ≤ version base then
      let (queue, del) := delAllPacket e.queue
      some ({ e with versionHead := new, queue := queue }, false, del)
    else some (e, true, none)
  | .newest =>
    if lastUpId = e.packetId ∧ e.queue.upTail ≠ none then
      let (queue, del) := delAllPacket e.queue
      some ({ e with queue := queue }, true, del)
    else some (e, true, none)
  | .error | .createFailed => some (e, false, none)

/-- What _recv_query_ack starts, as its return value. -/
def startAfterAck (retCode : Int) (isNewest : Bool) (lastUpId : Int) (e : ShadowEntity P V) :
    ShadowEntity P V × Int :=
  -- query_info, a field that the entity does not have, is read as query_status
  if 0 ≤ retCode ∧ e.queryStatus &&& updateing = 0 then
    if CanStartUpdate version e then (e.set updateing, updateing)
    else if CanStartQuery e ∨ (isNewest = false ∧ lastUpId = e.packetId) then
      (e.set querying, querying)
    else (e, retCode)
  else (e, retCode)

/-- The section of _recv_query_ack, with its return value and the packets to be freed. -/
def recvQueryAck (fuel : Nat) (reply : Reply V) (base : V) (lastUpId : Int)
    (e : ShadowEntity P V) : Option (ShadowEntity P V × Int × Option P) :=
  if IsEntityClosed e then some (e, reply.retCode, none)
  else
    (takeReply version fuel reply base lastUpId e).map fun (e, isNewest, del) =>
      let (e, ret) := startAfterAck version reply.retCode isNewest lastUpId (e.clear querying)
      (e, ret, del)

end

/-- Where a caller stands. A query is sent to a point, whose user waits for the answer or the
close (`sent`); one that could not be sent stays without either (`lost`). -/
inductive QueryPc (P V : Type) where
  | idle
  | updateLoop
  | createVersion (base : V)
  | addVersion (base new : V)
  | sendQuery
  | sendPacket (base : V) (lastUpId : Int)
  | sent (base : V) (lastUpId : Int)
  | lost

/-- What a caller does next, with what its environment answers. -/
inductive Op (P V : Type) where
  | comingUpdate (fromVersion : Int) (uppac : P)
  | updateLoop
  | createVersion (new : Option V)
  | addVersion (fuel : Nat)
  | sendQuery
  | sendPacket (ok : Bool)
  | recvQueryAck (fuel : Nat) (reply : Reply V)
  | queryingClose

/-- on_pushed_data_arrive and recv_query_ack act on a return value. -/
def goOn (ret : Int) : QueryPc P V :=
  if ret = updateing then .updateLoop else if ret = querying then .sendQuery else .idle

def step [DecidableEq P] [DecidableEq V] (op : Op P V) (e : ShadowEntity P V) (pc : QueryPc P V) :
    Option (ShadowEntity P V × QueryPc P V) :=
  match pc, op with
  | .idle, .comingUpdate fromVersion uppac =>
    let (e, ret, _) := entityComingUpdate version fromVersion uppac e
    some (e, goOn ret)
  | .updateLoop, .updateLoop =>
    let (e, ret, _, base) := updateLoop version e
    some (e, if ret = updateing then .createVersion base else goOn ret)
  | .createVersion base, .createVersion new =>
    -- a failure is not below zero, and p_new_version has no value then
    new.map fun new => (e, .addVersion base new)
  | .addVersion base new, .addVersion fuel =>
    (updateLoopAdd version fuel base new e).map fun (e, _) => (e, .updateLoop)
  | .sendQuery, .sendQuery =>
    let (e, query) := sendQuery e
    some (e, match query with
      | none => .lost
      | some (base, lastUpId) => .sendPacket base lastUpId)
  | .sendPacket base lastUpId, .sendPacket ok => some (e, if ok then .sent base lastUpId else .lost)
  | .sent base lastUpId, .recvQueryAck fuel reply =>
    (recvQueryAck version fuel reply base lastUpId e).map fun (e, ret, _) => (e, goOn ret)
  | .sent _ _, .queryingClose => some (queryingClose e, .idle)
  | _, _ => none

def protocol [DecidableEq P] [DecidableEq V] : Program (ShadowEntity P V) (QueryPc P V) Unit (Op P V) where
  start _ e := some (e, .idle)
  step := step version

/-- The caller runs an update_loop. -/
def QueryPc.updates : QueryPc P V → Nat
  | .updateLoop | .createVersion _ | .addVersion _ _ => 1
  | _ => 0

/-- The caller has a query that is neither answered nor closed. -/
def QueryPc.queries : QueryPc P V → Nat
  | .sendQuery | .sendPacket _ _ | .sent _ _ | .lost => 1
  | _ => 0

section
variable {base : V} {lastUpId : Int}

@[simp] theorem updates_idle : (.idle : QueryPc P V).updates = 0 := rfl

@[simp] theorem queries_idle : (.idle : QueryPc P V).queries = 0 := rfl

@[simp] theorem updates_updateLoop : (.updateLoop : QueryPc P V).updates = 1 := rfl

@[simp] theorem queries_updateLoop : (.updateLoop : QueryPc P V).queries = 0 := rfl

@[simp] theorem updates_sendQuery : (.sendQuery : QueryPc P V).updates = 0 := rfl

@[simp] theorem queries_sendQuery : (.sendQuery : QueryPc P V).queries = 1 := rfl

@[simp] theorem queries_sendPacket :
    (.sendPacket base lastUpId : QueryPc P V).queries = 1 := rfl

@[simp] theorem updates_sent : (.sent base lastUpId : QueryPc P V).updates = 0 := rfl

@[simp] theorem queries_sent : (.sent base lastUpId : QueryPc P V).queries = 1 := rfl

/-- Every caller but an idle one has a task. -/
theorem QueryPc.idle_or_task (pc : QueryPc P V) : pc = .idle ∨ 0 < pc.updates + pc.queries := by
  cases pc with
  | idle => exact .inl rfl
  | _ => exact .inr Nat.one_pos

end

theorem goOn_updateing : (goOn updateing : QueryPc P V) = .updateLoop := rfl

theorem goOn_querying : (goOn querying : QueryPc P V) = .sendQuery := rfl

theorem goOn_other {ret : Int} (noUpdate : ret ≠ updateing) (noQuery : ret ≠ querying) :
    (goOn ret : QueryPc P V) = .idle :=
  (if_neg noUpdate).trans (if_neg noQuery)

section
variable [DecidableEq P] [DecidableEq V] (e : ShadowEntity P V)

theorem step_comingUpdate (fromVersion : Int) (uppac : P) :
    step version (.comingUpdate fromVersion uppac) e .idle =
      some ((entityComingUpdate version fromVersion uppac e).1,
        goOn (entityComingUpdate version fromVersion uppac e).2.1) := rfl

theorem step_updateLoop : step version .updateLoop e .updateLoop =
    some ((updateLoop version e).1, if (updateLoop version e).2.1 = updateing then
      .createVersion (updateLoop version e).2.2.2 else goOn (updateLoop version e).2.1) := rfl

theorem step_sendQuery (opened : ¬ IsEntityClosed e) : step version .sendQuery e .sendQuery =
    some (e.clear canQuery, .sendPacket e.versionHead e.packetId) := by
  have query : sendQuery e = (e.clear canQuery, some (e.versionHead, e.packetId)) := if_neg opened
  have taken : step version .sendQuery e .sendQuery = some ((sendQuery e).1,
      match (sendQuery e).2 with
      | none => .lost
      | some (base, lastUpId) => .sendPacket base lastUpId) := rfl
  rw [taken, query]

theorem step_queryingClose {base : V} {lastUpId : Int} :
    step version .queryingClose e (.sent base lastUpId) = some (queryingClose e, .idle) := rfl

end

/-- The flag that the next section of the caller may clear. -/
def QueryPc.clears : QueryPc P V → Nat
  | .updateLoop => updateing
  | .sendQuery => canQuery
  | .sent _ _ => querying
  | _ => 0

/-- Each flag is set as long as the one caller it stands for goes on. -/
structure Truthful (c : Config (ShadowEntity P V) (QueryPc P V)) : Prop where
  updates : c.total QueryPc.updates = if c.shared.queryStatus &&& updateing = 0 then 0 else 1
  queries : c.total QueryPc.queries = if c.shared.queryStatus &&& querying = 0 then 0 else 1

/-- The status stays, and of the flags all but the one to be cleared. -/
structure Keeps (e : ShadowEntity P V) (pc : QueryPc P V) (e' : ShadowEntity P V) : Prop where
  status : e'.status = e.status
  flags : ∀ k, e.queryStatus.testBit k = true → pc.clears.testBit k = false →
    e'.queryStatus.testBit k = true

/-- A turn of update_loop finds an update, and a flag is cleared when no other one is set. -/
def clean (e : ShadowEntity P V) (pc : QueryPc P V) : Bool :=
  match pc with
  | .updateLoop => decide (CanStartUpdate version e)
  | .sendQuery => decide (e.queryStatus ||| canQuery = canQuery)
  | .sent _ _ => decide (e.queryStatus ||| querying = querying)
  | _ => true

section words
variable {w w' flag a b : Nat} {ret : Int}

@[simp] theorem not_updateing : not updateing = 0 := rfl

@[simp] theorem not_querying : not querying = 0 := rfl

@[simp] theorem not_canQuery : not canQuery = 0 := rfl

theorem land_zero (n : Int) : Int.land n 0 = 0 := by
  cases n with
  | ofNat n => exact congrArg Int.ofNat (Nat.and_zero n)
  | negSucc n => exact congrArg Int.ofNat (by simp [Nat.ldiff])

theorem updateing_iff : w &&& updateing = 0 ↔ w.testBit 2 = false := by
  have value : w &&& updateing = (w.testBit 2).toNat * 2 ^ 2 := Nat.and_two_pow w 2
  cases set : w.testBit 2 <;> simp [value, set]

theorem querying_iff : w &&& querying = 0 ↔ w.testBit 0 = false := by
  have value : w &&& querying = (w.testBit 0).toNat * 2 ^ 0 := Nat.and_two_pow w 0
  cases set : w.testBit 0 <;> simp [value, set]

/-- No flag but the given one is set. -/
theorem or_eq_iff : w ||| flag = flag ↔ ∀ k, w.testBit k = true → flag.testBit k = true := by
  constructor
  · intro same k set
    rw [← same, Nat.testBit_or, set, Bool.true_or]
  · intro only
    apply Nat.eq_of_testBit_eq
    intro k
    rw [Nat.testBit_or]
    cases set : w.testBit k with
    | true => rw [only k set, Bool.or_true]
    | false => exact Bool.false_or _

/-- `a` update loops and `b` queries under the flags of `w`. -/
def Tells (w a b : Nat) : Prop := a = (w.testBit 2).toNat ∧ b = (w.testBit 0).toNat

/-- A return value gives a task away when its flag becomes set. -/
structure Granted (w w' : Nat) (ret : Int) : Prop where
  updates : (ret = updateing ∧ w.testBit 2 = false ∧ w'.testBit 2 = true) ∨
    (ret ≠ updateing ∧ w'.testBit 2 = w.testBit 2)
  queries : (ret = querying ∧ w.testBit 0 = false ∧ w'.testBit 0 = true) ∨
    (ret ≠ querying ∧ w'.testBit 0 = w.testBit 0)
  keeps : ∀ k, w.testBit k = true → w'.testBit k = true

theorem Granted.none (small : ret ≠ updateing ∧ ret ≠ querying) : Granted w w ret :=
  ⟨.inr ⟨small.1, rfl⟩, .inr ⟨small.2, rfl⟩, fun _ => id⟩

theorem Granted.zero : Granted w w ((0 : Nat) : Int) := .none (by decide)

theorem Granted.update (free : w &&& updateing = 0) : Granted w (w ||| updateing) updateing where
  updates := by
    refine .inl ⟨rfl, updateing_iff.mp free, ?_⟩
    rw [Nat.testBit_or]
    exact Bool.or_true _
  queries := by
    refine .inr ⟨by decide, ?_⟩
    rw [Nat.testBit_or]
    exact Bool.or_false _
  keeps k set := by rw [Nat.testBit_or, set, Bool.true_or]

theorem Granted.query (free : w &&& querying = 0) : Granted w (w ||| querying) querying where
  updates := by
    refine .inr ⟨by decide, ?_⟩
    rw [Nat.testBit_or]
    exact Bool.or_false _
  queries := by
    refine .inl ⟨rfl, querying_iff.mp free, ?_⟩
    rw [Nat.testBit_or]
    exact Bool.or_true _
  keeps k set := by rw [Nat.testBit_or, set, Bool.true_or]

/-- The caller goes on with the task that its flag is set for. -/
theorem Granted.tells (granted : Granted w w' ret) (tells : Tells w a b) :
    Tells w' ((goOn (P := P) (V := V) ret).updates + a) ((goOn (P := P) (V := V) ret).queries + b) := by
  obtain ⟨updates, queries, _⟩ := granted
  obtain ⟨ups, asks⟩ := tells
  rcases updates with ⟨rfl, free, taken⟩ | ⟨other, same⟩
  · rcases queries with ⟨wrong, _⟩ | ⟨_, same⟩
    · exact absurd wrong (by decide)
    · rw [goOn_updateing]
      constructor
      · simp [ups, free, taken]
      · simp [asks, same]
  · rcases queries with ⟨rfl, free, taken⟩ | ⟨other', same'⟩
    · rw [goOn_querying]
      constructor
      · simp [ups, same]
      · simp [asks, free, taken]
    · rw [goOn_other other other']
      constructor
      · simp [ups, same]
      · simp [asks, same']

end words

theorem Granted.of_canQuery {w w' : Nat} {ret : Int} (granted : Granted (w ||| canQuery) w' ret) :
    Granted w w' ret := by
  have same : ∀ k, k ≠ 1 → (w ||| canQuery).testBit k = w.testBit k := by
    intro k other
    have unset : canQuery.testBit k = false := Nat.testBit_two_pow_of_ne (n := 1) (Ne.symm other)
    rw [Nat.testBit_or, unset, Bool.or_false]
  obtain ⟨updates, queries, keeps⟩ := granted
  rw [same 2 (by decide)] at updates
  rw [same 0 (by decide)] at queries
  refine ⟨updates, queries, fun k set => keeps k ?_⟩
  rw [Nat.testBit_or, set, Bool.true_or]

section sections
variable {e e' : ShadowEntity P V} {pc pc' : QueryPc P V} {op : Op P V} {a b : Nat}

/-- The flags tell the tasks, and a closed entity has none. -/
structure Ready (e : ShadowEntity P V) (a b : Nat) : Prop where
  tells : Tells e.queryStatus a b
  closed : IsEntityClosed e → a = 0 ∧ b = 0

/-- What a step with its caller's share of the tasks leads to. -/
structure Outcome (e : ShadowEntity P V) (pc : QueryPc P V) (e' : ShadowEntity P V)
    (pc' : QueryPc P V) (a b : Nat) : Prop where
  meets : clean version e pc = true ↔
    Tells e'.queryStatus (pc'.updates + a) (pc'.queries + b) ∧ Keeps e pc e'
  users : e'.totalUserNum = e.totalUserNum

theorem Outcome.of_keeps (tells : Tells e'.queryStatus (pc'.updates + a) (pc'.queries + b))
    (keeps : Keeps e pc e') (met : clean version e pc = true)
    (users : e'.totalUserNum = e.totalUserNum) : Outcome version e pc e' pc' a b :=
  ⟨⟨fun _ => ⟨tells, keeps⟩, fun _ => met⟩, users⟩

theorem startTask_granted (e : ShadowEntity P V) :
    Granted e.queryStatus (startTask version e).1.queryStatus (startTask version e).2 ∧
      (startTask version e).1.status = e.status ∧
      (startTask version e).1.totalUserNum = e.totalUserNum := by
  unfold startTask
  split
  next free =>
    split
    · exact ⟨.update free, rfl, rfl⟩
    · split
      next ask => exact ⟨.query ask.2, rfl, rfl⟩
      · exact ⟨.zero, rfl, rfl⟩
  · exact ⟨.zero, rfl, rfl⟩

/-- What is left of the flags when one is cleared. -/
theorem clear_queryStatus (e : ShadowEntity P V) {flag : Nat} (set : flag ≠ 0) :
    (e.clear flag).queryStatus = 0 := by
  simp [ShadowEntity.clear, not, set]

/-- From flags that are all clear. -/
theorem startAfterAck_granted {retCode : Int} (isNewest : Bool) (lastUpId : Int)
    (low : retCode ≤ 0) (none : e.queryStatus = 0) :
    Granted 0 (startAfterAck version retCode isNewest lastUpId e).1.queryStatus
        (startAfterAck version retCode isNewest lastUpId e).2 ∧
      (∀ k, (startAfterAck version retCode isNewest lastUpId e).1.queryStatus.testBit k = true →
        k = 2 ∧ (startAfterAck version retCode isNewest lastUpId e).2 = updateing ∨ k = 0) ∧
      (startAfterAck version retCode isNewest lastUpId e).1.status = e.status ∧
      (startAfterAck version retCode isNewest lastUpId e).1.totalUserNum = e.totalUserNum := by
  have only : ∀ {n k : Nat}, (e.queryStatus ||| 2 ^ n).testBit k = true → k = n := by
    intro n k set
    rw [none, Nat.zero_or, Nat.testBit_two_pow] at set
    exact (of_decide_eq_true set).symm
  have idle : Granted 0 e.queryStatus retCode ∧
      ∀ k, e.queryStatus.testBit k = true → k = 2 ∧ retCode = updateing ∨ k = 0 := by
    rw [none]
    constructor
    · apply Granted.none
      simp only [updateing, querying]
      omega
    · intro k set
      rw [Nat.zero_testBit] at set
      contradiction
  unfold startAfterAck
  split
  · split
    · have granted : Granted e.queryStatus (e.queryStatus ||| updateing) updateing :=
        .update (by rw [none]; rfl)
      rw [none] at granted
      refine ⟨?_, fun k set => .inl ⟨only (n := 2) set, rfl⟩, rfl, rfl⟩
      simp only [ShadowEntity.set, none]
      exact granted
    · split
      · have granted : Granted e.queryStatus (e.queryStatus ||| querying) querying :=
          .query (by rw [none]; rfl)
        rw [none] at granted
        refine ⟨?_, fun k set => .inr (only (n := 0) set), rfl, rfl⟩
        simp only [ShadowEntity.set, none]
        exact granted
      · exact ⟨idle.1, idle.2, rfl, rfl⟩
  · exact ⟨idle.1, idle.2, rfl, rfl⟩

/-- The end of a query, whose flag is cleared. -/
theorem sent_outcome {base : V} {lastUpId ret : Int} (ready : Ready e a (1 + b))
    (granted : Granted 0 e'.queryStatus ret)
    (only : ∀ k, e'.queryStatus.testBit k = true → k = 2 ∧ ret = updateing ∨ k = 0)
    (status : e'.status = e.status) (users : e'.totalUserNum = e.totalUserNum) :
    Outcome version e (.sent base lastUpId) e' (goOn ret) a b := by
  obtain ⟨ups, asks⟩ := ready.tells
  refine ⟨⟨fun met => ?_, fun met => decide_eq_true (or_eq_iff.mpr fun k set => ?_)⟩, users⟩
  · have lone := or_eq_iff.mp (of_decide_eq_true met)
    have none : e.queryStatus.testBit 2 = false := by
      by_contra some
      rw [Bool.not_eq_false] at some
      exact absurd (lone 2 some) (by decide)
    rw [none, Bool.toNat_false] at ups
    have tells : Tells 0 a b := by
      rw [Tells, Nat.zero_testBit, Nat.zero_testBit, Bool.toNat_false]
      refine ⟨ups, ?_⟩
      have most := Bool.toNat_le (e.queryStatus.testBit 0)
      omega
    refine ⟨granted.tells tells, status, fun k set unset => ?_⟩
    have clears : querying.testBit k = false := unset
    rw [lone k set] at clears
    contradiction
  · by_contra other
    rw [Bool.not_eq_true] at other
    obtain ⟨⟨ups', _⟩, keeps⟩ := met
    rcases only k (keeps.flags k set other) with ⟨rfl, rfl⟩ | rfl
    · rw [set, Bool.toNat_true] at ups
      have most := Bool.toNat_le (e'.queryStatus.testBit 2)
      rw [goOn_updateing, updates_updateLoop] at ups'
      omega
    · exact absurd other (by decide)

variable [DecidableEq P]

theorem comingPacket_kept (fromVersion : Int) (uppac : P) (e : ShadowEntity P V) :
    ((comingPacket version fromVersion uppac e).1.queryStatus = e.queryStatus ∨
      (comingPacket version fromVersion uppac e).1.queryStatus = e.queryStatus ||| canQuery) ∧
      (comingPacket version fromVersion uppac e).1.status = e.status ∧
      (comingPacket version fromVersion uppac e).1.totalUserNum = e.totalUserNum := by
  unfold comingPacket
  by_cases back : fromVersion ≤ u32 e.lastBigestVersion
  · simp only [if_pos back]
    by_cases asks : fromVersion < version e.versionHead
    · simp only [if_pos asks, if_neg (Int.not_le.mpr asks)]
      exact ⟨.inr rfl, rfl, rfl⟩
    · simp only [if_neg asks, if_pos (Int.not_lt.mp asks)]
      split <;> exact ⟨.inl rfl, rfl, rfl⟩
  · simp only [if_neg back]
    split
    · split <;> exact ⟨.inl rfl, rfl, rfl⟩
    · exact ⟨.inl rfl, rfl, rfl⟩

theorem entityComingUpdate_granted (fromVersion : Int) (uppac : P) (e : ShadowEntity P V) :
    Granted e.queryStatus (entityComingUpdate version fromVersion uppac e).1.queryStatus
        (entityComingUpdate version fromVersion uppac e).2.1 ∧
      (entityComingUpdate version fromVersion uppac e).1.status = e.status ∧
      (entityComingUpdate version fromVersion uppac e).1.totalUserNum = e.totalUserNum := by
  unfold entityComingUpdate
  split
  · exact ⟨.zero, rfl, rfl⟩
  · obtain ⟨word, status, users⟩ := comingPacket_kept version fromVersion uppac e
    obtain ⟨granted, status', users'⟩ :=
      startTask_granted version (comingPacket version fromVersion uppac e).1
    refine ⟨?_, status'.trans status, users'.trans users⟩
    rcases word with same | asks
    · rw [same] at granted
      exact granted
    · rw [asks] at granted
      exact granted.of_canQuery

theorem addVersion_kept {fuel : Nat} {given : Option V} {new : V} {del : Option P}
    (added : addVersion version fuel given new e = some (e', del)) :
    e'.queryStatus = e.queryStatus ∧ e'.status = e.status ∧ e'.totalUserNum = e.totalUserNum := by
  obtain ⟨mid, entered, rest⟩ := Option.bind_eq_some_iff.mp added
  obtain ⟨head, _, same⟩ := Option.map_eq_some_iff.mp entered
  obtain ⟨⟨queue, del'⟩, _, same'⟩ := Option.map_eq_some_iff.mp rest
  cases same
  cases same'
  exact ⟨rfl, rfl, rfl⟩

theorem updateLoopAdd_kept [DecidableEq V] {fuel : Nat} {base new : V} {del : Option P}
    (added : updateLoopAdd version fuel base new e = some (e', del)) :
    e'.queryStatus = e.queryStatus ∧ e'.status = e.status ∧ e'.totalUserNum = e.totalUserNum := by
  unfold updateLoopAdd at added
  split at added
  · exact addVersion_kept version added
  · cases added
    exact ⟨rfl, rfl, rfl⟩

theorem takeReply_kept {fuel : Nat} {reply : Reply V} {base : V} {lastUpId : Int} {isNewest : Bool}
    {del : Option P}
    (taken : takeReply version fuel reply base lastUpId e = some (e', isNewest, del)) :
    e'.queryStatus = e.queryStatus ∧ e'.status = e.status ∧ e'.totalUserNum = e.totalUserNum := by
  cases reply with
  | error =>
    cases taken
    exact ⟨rfl, rfl, rfl⟩
  | createFailed =>
    cases taken
    exact ⟨rfl, rfl, rfl⟩
  | newest =>
    simp only [takeReply] at taken
    split at taken <;> cases taken <;> exact ⟨rfl, rfl, rfl⟩
  | update new =>
    simp only [takeReply] at taken
    split at taken
    · obtain ⟨⟨mid, del'⟩, added, same⟩ := Option.map_eq_some_iff.mp taken
      cases same
      exact addVersion_kept version added
    · split at taken <;> cases taken <;> exact ⟨rfl, rfl, rfl⟩

/-- The flags after an answer are those that it has set. -/
theorem recvQueryAck_open {fuel : Nat} {reply : Reply V} {base : V} {lastUpId ret : Int}
    {del : Option P} (opened : ¬ IsEntityClosed e)
    (acked : recvQueryAck version fuel reply base lastUpId e = some (e', ret, del)) :
    Granted 0 e'.queryStatus ret ∧
      (∀ k, e'.queryStatus.testBit k = true → k = 2 ∧ ret = updateing ∨ k = 0) ∧
      e'.status = e.status ∧ e'.totalUserNum = e.totalUserNum := by
  simp only [recvQueryAck, if_neg opened] at acked
  obtain ⟨⟨mid, isNewest, del'⟩, taken, same⟩ := Option.map_eq_some_iff.mp acked
  obtain ⟨_, status, users⟩ := takeReply_kept version taken
  have none : (mid.clear querying).queryStatus = 0 := clear_queryStatus mid (by decide)
  have low : reply.retCode ≤ 0 := by
    cases reply <;> simp [Reply.retCode]
  obtain ⟨granted, only, status', users'⟩ := startAfterAck_granted version isNewest lastUpId low none
  cases same
  exact ⟨granted, only, status'.trans status, users'.trans users⟩

variable [DecidableEq V]

/-- A closed entity has no caller with a task, and gives none away. -/
theorem step_closed (closed : IsEntityClosed e)
    (ready : Ready e (pc.updates + a) (pc.queries + b))
    (acted : step version op e pc = some (e', pc')) :
    pc = .idle ∧ pc' = .idle ∧ e' = e := by
  obtain ⟨noUpdate, noQuery⟩ := ready.closed closed
  rcases pc.idle_or_task with rfl | task
  · cases op with
    | comingUpdate fromVersion uppac =>
      have refused : entityComingUpdate version fromVersion uppac e = (e, 0, none) :=
        if_pos (Or.inl closed)
      rw [step_comingUpdate, refused] at acted
      cases acted
      exact ⟨rfl, rfl, rfl⟩
    | _ => cases acted
  · omega

/-- An update_loop that leaves an open entity leaves its flag behind. -/
theorem updateLoop_outcome (opened : ¬ IsEntityClosed e)
    (ready : Ready e (1 + a) b)
    (acted : step version .updateLoop e .updateLoop = some (e', pc')) :
    Outcome version e .updateLoop e' pc' a b := by
  obtain ⟨ups, asks⟩ := ready.tells
  by_cases starts : CanStartUpdate version e
  · rw [step_updateLoop, updateLoop, if_neg opened, if_pos starts] at acted
    cases acted
    have met : clean version e .updateLoop = true := decide_eq_true starts
    refine Outcome.of_keeps version ⟨ups, ?_⟩ ⟨rfl, fun _ set _ => set⟩ met rfl
    exact (Nat.zero_add b).trans asks
  · have running : e.queryStatus.testBit 2 = true := by
      by_contra clear
      rw [Bool.not_eq_true] at clear
      rw [clear, Bool.toNat_false] at ups
      omega
    have leaves : pc'.updates = 0 ∧ e'.queryStatus.testBit 2 = true ∧
        e'.totalUserNum = e.totalUserNum := by
      simp only [step_updateLoop, updateLoop, if_neg opened, if_neg starts] at acted
      split at acted
      · cases acted
        refine ⟨rfl, ?_, rfl⟩
        simp only [ShadowEntity.set, Nat.testBit_or, running, Bool.true_or]
      · cases acted
        exact ⟨rfl, running, rfl⟩
    refine ⟨⟨fun met => absurd (of_decide_eq_true met) starts, fun met => ?_⟩, leaves.2.2⟩
    obtain ⟨⟨ups', _⟩, _⟩ := met
    rw [running, Bool.toNat_true] at ups
    rw [leaves.1, leaves.2.1, Bool.toNat_true] at ups'
    omega

/-- send_query clears the flag of the query that it sends. -/
theorem sendQuery_outcome (opened : ¬ IsEntityClosed e) (ready : Ready e a (1 + b))
    (acted : step version .sendQuery e .sendQuery = some (e', pc')) :
    Outcome version e .sendQuery e' pc' a b := by
  obtain ⟨ups, asks⟩ := ready.tells
  have asked : e.queryStatus.testBit 0 = true := by
    by_contra clear
    rw [Bool.not_eq_true] at clear
    rw [clear, Bool.toNat_false] at asks
    omega
  rw [step_sendQuery version e opened] at acted
  cases acted
  refine ⟨⟨fun met => ?_, fun met => ?_⟩, rfl⟩
  · have only := or_eq_iff.mp (of_decide_eq_true met) 0 asked
    exact absurd only (by decide)
  · obtain ⟨⟨_, asks'⟩, _⟩ := met
    rw [clear_queryStatus e (by decide), Nat.zero_testBit, Bool.toNat_false] at asks'
    rw [queries_sendPacket] at asks'
    omega

theorem step_sent (opened : ¬ IsEntityClosed e) {base : V} {lastUpId : Int}
    (ready : Ready e a (1 + b))
    (acted : step version op e (.sent base lastUpId) = some (e', pc')) :
    Outcome version e (.sent base lastUpId) e' pc' a b := by
  cases op with
  | recvQueryAck fuel reply =>
    obtain ⟨⟨next, ret, del⟩, acked, same⟩ := Option.map_eq_some_iff.mp acted
    cases same
    obtain ⟨granted, only, status, users⟩ := recvQueryAck_open version opened acked
    exact sent_outcome version ready granted only status users
  | queryingClose =>
    rw [step_queryingClose, queryingClose, if_neg opened] at acted
    cases acted
    have none : (e.clear querying).queryStatus = 0 := clear_queryStatus e (by decide)
    have idle : (.idle : QueryPc P V) = goOn 0 := rfl
    rw [idle]
    refine sent_outcome version ready ?_ (fun k set => ?_) rfl rfl
    · rw [none]
      exact .zero
    · rw [none, Nat.zero_testBit] at set
      contradiction
  | _ => cases acted

theorem step_outcome (ready : Ready e (pc.updates + a) (pc.queries + b))
    (acted : step version op e pc = some (e', pc')) :
    Outcome version e pc e' pc' a b := by
  by_cases closed : IsEntityClosed e
  · obtain ⟨rfl, rfl, rfl⟩ := step_closed version closed ready acted
    exact Outcome.of_keeps version ready.tells ⟨rfl, fun _ set _ => set⟩ rfl rfl
  cases pc with
  | idle =>
    cases op with
    | comingUpdate fromVersion uppac =>
      obtain ⟨granted, status, users⟩ :=
        entityComingUpdate_granted version fromVersion uppac e
      cases acted
      have tells : Tells e.queryStatus a b := by
        simpa using ready.tells
      exact Outcome.of_keeps version (granted.tells tells) ⟨status, fun k set _ => granted.keeps k set⟩ rfl users
    | _ => cases acted
  | updateLoop =>
    cases op with
    | updateLoop =>
      rw [updates_updateLoop, queries_updateLoop, Nat.zero_add] at ready
      exact updateLoop_outcome version closed ready acted
    | _ => cases acted
  | createVersion base =>
    cases op with
    | createVersion new =>
      obtain ⟨next, _, same⟩ := Option.map_eq_some_iff.mp acted
      cases same
      exact Outcome.of_keeps version ready.tells ⟨rfl, fun _ set _ => set⟩ rfl rfl
    | _ => cases acted
  | addVersion base new =>
    cases op with
    | addVersion fuel =>
      obtain ⟨⟨next, del⟩, added, same⟩ := Option.map_eq_some_iff.mp acted
      cases same
      obtain ⟨word, status, users⟩ := updateLoopAdd_kept version added
      refine Outcome.of_keeps version ?_ ⟨status, fun k set _ => word ▸ set⟩ rfl users
      rw [word]
      exact ready.tells
    | _ => cases acted
  | sendQuery =>
    cases op with
    | sendQuery =>
      rw [updates_sendQuery, queries_sendQuery, Nat.zero_add] at ready
      exact sendQuery_outcome version closed ready acted
    | _ => cases acted
  | sendPacket base lastUpId =>
    cases op with
    | sendPacket ok =>
      cases acted
      cases ok <;> exact Outcome.of_keeps version ready.tells ⟨rfl, fun _ set _ => set⟩ rfl rfl
    | _ => cases acted
  | sent base lastUpId =>
    rw [updates_sent, queries_sent, Nat.zero_add] at ready
    exact step_sent version closed ready acted
  | lost => cases acted

end sections

theorem truthful_iff {c : Config (ShadowEntity P V) (QueryPc P V)} :
    Truthful c ↔
      Tells c.shared.queryStatus (c.total QueryPc.updates) (c.total QueryPc.queries) := by
  have update : (if c.shared.queryStatus &&& updateing = 0 then 0 else 1) =
      (c.shared.queryStatus.testBit 2).toNat := by
    cases set : c.shared.queryStatus.testBit 2 <;> simp [updateing_iff, set]
  have query : (if c.shared.queryStatus &&& querying = 0 then 0 else 1) =
      (c.shared.queryStatus.testBit 0).toNat := by
    cases set : c.shared.queryStatus.testBit 0 <;> simp [querying_iff, set]
  constructor
  · rintro ⟨updates, queries⟩
    exact ⟨updates.trans update, queries.trans query⟩
  · rintro ⟨updates, queries⟩
    exact ⟨updates.trans update.symm, queries.trans query.symm⟩

/-- The flags are those of the callers, and a closed entity has no caller with a task. -/
structure Invariant (c : Config (ShadowEntity P V) (QueryPc P V)) : Prop where
  truthful : Truthful c
  closed : IsEntityClosed c.shared →
    c.total QueryPc.updates = 0 ∧ c.total QueryPc.queries = 0

variable [DecidableEq P] [DecidableEq V]

abbrev CleanRun : Config (ShadowEntity P V) (QueryPc P V) →
    Config (ShadowEntity P V) (QueryPc P V) → Prop :=
  (protocol version).ReachesWhere fun c pc => clean version c.shared pc = true

section
variable {c c' : Config (ShadowEntity P V) (QueryPc P V)} {e e' : ShadowEntity P V}
variable {pc pc' : QueryPc P V} {pre post : List (QueryPc P V)} {op : Op P V}

theorem step_meets (inv : Invariant ⟨e, pre ++ pc :: post⟩)
    (acted : step version op e pc = some (e', pc')) :
    (clean version e pc = true ↔ Truthful ⟨e', pre ++ pc' :: post⟩ ∧ Keeps e pc e') ∧
      e'.totalUserNum = e.totalUserNum := by
  obtain ⟨truthful, closed⟩ := inv
  rw [truthful_iff] at truthful
  simp only [total_split] at truthful closed
  obtain ⟨meets, users⟩ := step_outcome version ⟨truthful, closed⟩ acted
  simp only [truthful_iff, total_split]
  exact ⟨meets, users⟩

theorem step_invariant (inv : Invariant ⟨e, pre ++ pc :: post⟩) (met : clean version e pc = true)
    (acted : step version op e pc = some (e', pc')) :
    Invariant ⟨e', pre ++ pc' :: post⟩ ∧ e'.status = e.status := by
  obtain ⟨meets, users⟩ := step_meets version inv acted
  obtain ⟨truthful, keeps⟩ := meets.mp met
  refine ⟨⟨truthful, fun closed => ?_⟩, keeps.status⟩
  have before : IsEntityClosed e := ⟨keeps.status ▸ closed.1, users ▸ closed.2⟩
  have none := inv.closed before
  have ready : Ready e (pc.updates + others QueryPc.updates pre post)
      (pc.queries + others QueryPc.queries pre post) := by
    have tells := truthful_iff.mp inv.truthful
    simp only [total_split] at tells none
    exact ⟨tells, fun _ => none⟩
  obtain ⟨rfl, rfl, rfl⟩ := step_closed version before ready acted
  exact none

theorem start_invariant {u : Unit} {ls : List (QueryPc P V)} (inv : Invariant ⟨e, ls⟩)
    (started : (protocol version).start u e = some (e', pc)) :
    Invariant ⟨e', ls ++ [pc]⟩ ∧ e'.status = e.status := by
  cases started
  obtain ⟨⟨updates, queries⟩, closed⟩ := inv
  refine ⟨⟨⟨?_, ?_⟩, fun shut => ?_⟩, rfl⟩
  · rw [total_start _ e e]
    exact updates
  · rw [total_start _ e e]
    exact queries
  · rw [total_start _ e e, total_start _ e e]
    exact closed shut

theorem run_invariant (inv : Invariant c) (run : CleanRun version c c') :
    Invariant c' ∧ c'.shared.status = c.shared.status := by
  apply Program.ReachesWhere.invariant ⟨inv, rfl⟩ _ _ run
  · rintro u e e' pc ls ⟨inv, same⟩ started
    obtain ⟨inv', kept⟩ := start_invariant version inv started
    exact ⟨inv', kept.trans same⟩
  · rintro op e e' pc pc' pre post ⟨inv, same⟩ met acted
    obtain ⟨inv', kept⟩ := step_invariant version inv met acted
    exact ⟨inv', kept.trans same⟩

/-- In a clean run the flags tell the truth, and the next step keeps it that way, the other
flags and the status if and only if it is clean. -/
theorem query_flags (inv : Invariant c) (run : CleanRun version c c') :
    Truthful c' ∧ c'.shared.status = c.shared.status ∧
      ∀ op pre pc post e' pc', c'.calls = pre ++ pc :: post →
        step version op c'.shared pc = some (e', pc') →
        (clean version c'.shared pc = true ↔
          Truthful ⟨e', pre ++ pc' :: post⟩ ∧ Keeps c'.shared pc e') := by
  obtain ⟨inv', status⟩ := run_invariant version inv run
  refine ⟨inv'.truthful, status, fun op pre pc post e' pc' split acted => ?_⟩
  obtain ⟨e, calls⟩ := c'
  dsimp only at split acted
  subst split
  exact (step_meets version inv' acted).1

end

/-- An entity with one user and an empty queue, marked for its close; a version is its number. -/
def fresh (versionHead : Int) : Config (ShadowEntity Unit Int) (QueryPc Unit Int) :=
  ⟨⟨-1, 1, true, versionHead, 0, ⟨none, none, 0, fun _ => loose, fun _ => ⟨0, 0⟩⟩, -1, 0⟩, []⟩

theorem fresh_invariant (versionHead : Int) : Invariant (fresh versionHead) :=
  ⟨⟨by simp [Config.total, fresh], by simp [Config.total, fresh]⟩, fun _ => ⟨rfl, rfl⟩⟩

/-- An update starts an update_loop, which takes it. -/
theorem query_flags_update : ∃ c, CleanRun id (fresh 0) c ∧ c.shared.queryStatus = updateing ∧
    c.shared.status = -1 ∧ Truthful c := by
  have executed : (((protocol id).execWhere (fun c pc => clean id c.shared pc)
      [.inl (), .inr (0, .comingUpdate 0 ()), .inr (0, .updateLoop),
        .inr (0, .createVersion (some 1))] (fresh 0)).map
      (·.shared.queryStatus)) = some updateing := by with_unfolding_all rfl
  obtain ⟨c, done, flags⟩ := Option.map_eq_some_iff.mp executed
  have run := Program.execWhere_reaches done
  obtain ⟨truthful, status, _⟩ := query_flags id (fresh_invariant 0) run
  exact ⟨c, run, flags, status, truthful⟩

/-- A packet for a version that the entity does not have starts a query, and send_query clears
its flag. -/
theorem query_flags_cleared : ∃ c, (protocol id).Reaches (fresh 1) c ∧ ¬ Truthful c := by
  have executed : (((protocol id).execWhere (fun _ _ => true)
      [.inl (), .inr (0, .comingUpdate 1 ()), .inr (0, .sendQuery)] (fresh 1)).map
      fun c => (c.shared.queryStatus, c.total QueryPc.queries)) = some (0, 1) := by
    with_unfolding_all rfl
  obtain ⟨c, done, same⟩ := Option.map_eq_some_iff.mp executed
  simp only [Prod.mk.injEq] at same
  obtain ⟨flags, asked⟩ := same
  refine ⟨c, (Program.execWhere_reaches done).reaches, fun truthful => ?_⟩
  have queries := truthful.queries
  rw [flags, asked] at queries
  exact absurd queries (by decide)

end MoonInWater.Sync.QueryFlags
