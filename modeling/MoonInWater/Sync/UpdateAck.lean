import MoonInWater.Sync.ServerUpdate

/-! One MOON_UPDATE packet in server_recv_packet: the answer that is sent, what becomes of the
packet, and what becomes of the version that is built from it. -/
namespace MoonInWater.Sync.UpdateAck
open CInt VersionWindow ServerUpdate

/-- The entity with the versions and packets of the server: how often a version was marked old,
how often a reference to it was dropped, the packet in its p_buf_head, the status codes that were
sent and the packets that were freed. -/
structure State (V M B : Type) where
  entity : ShadowEntity V M
  refNum : V → Int
  markedOld : V → Nat
  refDecs : V → Nat
  pBufHead : V → Option B
  acks : List MoonUpdateAck
  freed : List B

inductive Created (V : Type) where
  | version (v : V)
  | failed (code : MoonUpdateAck) (error : code ≠ .updateSuccess)

/-- What the call is answered: by _create_new_version, by the other threads until version_mutex is
taken again, and by send_packet. -/
structure Answers (V M : Type) where
  created : Created V
  entity : ShadowEntity V M
  refNum : V → Int
  sent : Bool

variable {V M B : Type} [DecidableEq V]

def freeTotalPacket (packet : Option B) (s : State V M B) : State V M B :=
  match packet with
  | none => s
  | some b => { s with freed := b :: s.freed }

def versionRefInc (v : V) (s : State V M B) : State V M B :=
  { s with refNum := Function.update s.refNum v (i32 (s.refNum v + 1)) }

/-- version_ref_dec, with version_surface_free of the last reference. -/
def versionRefDec (v : V) (s : State V M B) : State V M B :=
  let tmp := i32 (s.refNum v - 1)
  let s := { s with
    refNum := Function.update s.refNum v tmp
    refDecs := Function.update s.refDecs v (s.refDecs v + 1) }
  if tmp = 0 then freeTotalPacket (s.pBufHead v) s else s

/-- set_version_status_old; what the close of a version does to its blocks is left out, and one
that is not in the entity is not taken out of it. -/
def setVersionStatusOld (v : V) (s : State V M B) : State V M B :=
  { s with markedOld := Function.update s.markedOld v (s.markedOld v + 1) }

variable [DecidableEq M]

/-- The code of an update on `base`, with the version that is built. -/
def errorCode (created : Created V) (e : ShadowEntity V M) (base : V) (head : UpdateHead M) :
    MoonUpdateAck × Option V :=
  if (e.versions base).md5Sum ≠ head.fromMd5 then (.versionTooOld, none)
  else if (e.versions base).version ≠ head.fromVersion ∨
      head.toVersion ≠ (head.fromVersion + 1) % 2 ^ 32 ∨ head.infoBits &&& hasNewId ≠ 0 then
    (.updateHeadError, none)
  else
    match created with
    | .version v => (.updateSuccess, some v)
    | .failed code _ => (code, none)

/-- server_add_version_to_entity, with the version that it retires marked old. -/
def addVersion (a : Answers V M) (base v : V) (s : State V M B) : State V M B × MoonUpdateAck :=
  let added := serverAddVersionToEntity base v a.entity
  let s := { s with entity := added.1, refNum := a.refNum }
  match added.2.2 with
  | none => (s, added.2.1)
  | some tmp => (setVersionStatusOld tmp s, added.2.1)

/-- The packet is handed to the new version, which is added to the entity; with p_buf_head. -/
def handOn (a : Answers V M) (b : B) (base : V) (new : MoonUpdateAck × Option V)
    (s : State V M B) : State V M B × MoonUpdateAck × Option B :=
  match new with
  | (.updateSuccess, some v) =>
    let added := addVersion a base v { s with pBufHead := Function.update s.pBufHead v (some b) }
    (added.1, added.2, none)
  | (code, _) => (s, code, some b)

/-- A version that was not added is closed. -/
def dropVersion (code : MoonUpdateAck) (new : Option V) (s : State V M B) : State V M B :=
  match new with
  | none => s
  | some v => if code = .updateSuccess then s else versionRefDec v (setVersionStatusOld v s)

omit [DecidableEq V] [DecidableEq M] in
/-- The answer, with the return value; it is p_buf_head that is tested for the failure of
create_update_ack_packet. -/
def sendAck (a : Answers V M) (code : MoonUpdateAck) (pBufHead : Option B) (s : State V M B) :
    State V M B × Int :=
  if pBufHead.isNone then (freeTotalPacket pBufHead s, -1)
  else if a.sent = false then (freeTotalPacket pBufHead s, -1)
  else (freeTotalPacket pBufHead { s with acks := code :: s.acks }, 0)

/-- The case MOON_UPDATE for the packet `b`, which may be too short for its head. -/
def recvUpdate (a : Answers V M) (b : B) (short : Bool) (head : UpdateHead M) (s : State V M B) :
    State V M B × Int :=
  if short = true ∨ unpackUpdatePacketHead head = false then (freeTotalPacket (some b) s, -1)
  else if IsEntityClosed s.entity then (freeTotalPacket (some b) s, -1)
  else
    let base := s.entity.versionHead
    let s := versionRefInc base s
    let new := errorCode a.created s.entity base head
    let handed := handOn a b base new s
    let s := versionRefDec base handed.1
    sendAck a handed.2.1 handed.2.2 (dropVersion handed.2.1 new.2 s)

/-- The update is refused before a version is built. -/
def Refused (created : Created V) (e : ShadowEntity V M) (head : UpdateHead M) : Prop :=
  let info := e.versions e.versionHead
  info.md5Sum ≠ head.fromMd5 ∨ info.version ≠ head.fromVersion ∨
    head.toVersion ≠ (head.fromVersion + 1) % 2 ^ 32 ∨ head.infoBits &&& hasNewId ≠ 0 ∨
    ∃ code error, created = .failed code error

/-- The packet belongs to no version yet, and a version that is built is a new one. -/
structure Fresh (a : Answers V M) (b : B) (s : State V M B) : Prop where
  packet : ∀ v, s.pBufHead v ≠ some b
  version : ∀ v, a.created = .version v → v ≠ s.entity.versionHead ∧
    v ≠ a.entity.versionHead ∧ a.refNum v = 1

/-- One answer is sent, which says whether the version `built` has been added, and the packet and
a version that is not added are each done with once. -/
structure Acknowledged [DecidableEq B] (built : Option V) (b : B) (s s' : State V M B) : Prop where
  ack : ∃ code, s'.acks = code :: s.acks ∧
    (code = .updateSuccess ↔ ∃ v ∈ built, s'.entity.versionHead = v)
  packet : (s'.freed.count b = s.freed.count b + 1 ∧ ∀ v ∈ built, s'.entity.versionHead ≠ v) ∨
    (s'.freed.count b = s.freed.count b ∧
      ∃ v ∈ built, s'.entity.versionHead = v ∧ s'.pBufHead v = some b)
  closed : ∀ v ∈ built, s'.entity.versionHead ≠ v →
    s'.markedOld v = s.markedOld v + 1 ∧ s'.refDecs v = s.refDecs v + 1

section
variable {a : Answers V M} {b : B} {head : UpdateHead M} {s : State V M B} {v base : V}

omit [DecidableEq V] in
theorem errorCode_cases (created : Created V) (e : ShadowEntity V M) (head : UpdateHead M) :
    (Refused created e head ∧ ∃ code, code ≠ .updateSuccess ∧
      errorCode created e e.versionHead head = (code, none)) ∨
    (¬ Refused created e head ∧ ∃ v, created = .version v ∧
      errorCode created e e.versionHead head = (.updateSuccess, some v)) := by
  by_cases md5 : (e.versions e.versionHead).md5Sum ≠ head.fromMd5
  · refine .inl ⟨.inl md5, .versionTooOld, by decide, ?_⟩
    simp only [errorCode, if_pos md5]
  · by_cases numbers : (e.versions e.versionHead).version ≠ head.fromVersion ∨
        head.toVersion ≠ (head.fromVersion + 1) % 2 ^ 32 ∨ head.infoBits &&& hasNewId ≠ 0
    · refine .inl ⟨.inr ?_, .updateHeadError, by decide, ?_⟩
      · rcases numbers with number | next | bits
        · exact .inl number
        · exact .inr (.inl next)
        · exact .inr (.inr (.inl bits))
      · simp only [errorCode, if_neg md5, if_pos numbers]
    · cases created with
      | version v =>
        refine .inr ⟨?_, v, rfl, by simp only [errorCode, if_neg md5, if_neg numbers]⟩
        rintro (wrong | number | next | bits | ⟨code, error, wrong⟩)
        · exact md5 wrong
        · exact numbers (.inl number)
        · exact numbers (.inr (.inl next))
        · exact numbers (.inr (.inr bits))
        · contradiction
      | failed code error =>
        refine .inl ⟨.inr (.inr (.inr (.inr ⟨code, error, rfl⟩))), code, error, ?_⟩
        simp only [errorCode, if_neg md5, if_neg numbers]

omit [DecidableEq V] [DecidableEq M] in
theorem freeTotalPacket_spec (packet : Option B) (s : State V M B) :
    freeTotalPacket packet s = { s with freed := packet.toList ++ s.freed } := by
  cases packet <;> rfl

omit [DecidableEq M] in
/-- The last reference to a version is dropped with its packet. -/
theorem versionRefDec_spec (v : V) (s : State V M B) :
    versionRefDec v s = { s with
      refNum := Function.update s.refNum v (i32 (s.refNum v - 1))
      refDecs := Function.update s.refDecs v (s.refDecs v + 1)
      freed := (if i32 (s.refNum v - 1) = 0 then (s.pBufHead v).toList else []) ++ s.freed } := by
  simp only [versionRefDec]
  split
  · rw [freeTotalPacket_spec]
  · rfl

omit [DecidableEq M] in
@[simp] theorem versionRefDec_acks : (versionRefDec v s).acks = s.acks := by
  rw [versionRefDec_spec]

omit [DecidableEq M] in
@[simp] theorem versionRefDec_entity : (versionRefDec v s).entity = s.entity := by
  rw [versionRefDec_spec]

omit [DecidableEq M] in
@[simp] theorem versionRefDec_pBufHead : (versionRefDec v s).pBufHead = s.pBufHead := by
  rw [versionRefDec_spec]

omit [DecidableEq M] in
@[simp] theorem versionRefDec_markedOld : (versionRefDec v s).markedOld = s.markedOld := by
  rw [versionRefDec_spec]

omit [DecidableEq M] in
theorem versionRefDec_refDecs : (versionRefDec v s).refDecs v = s.refDecs v + 1 := by
  rw [versionRefDec_spec]
  exact Function.update_self ..

omit [DecidableEq M] in
theorem versionRefDec_apart (other : base ≠ v) :
    (versionRefDec base s).refDecs v = s.refDecs v ∧
      (versionRefDec base s).refNum v = s.refNum v := by
  rw [versionRefDec_spec]
  exact ⟨Function.update_of_ne other.symm .., Function.update_of_ne other.symm ..⟩

omit [DecidableEq M] in
/-- With its only reference a version drops its packet. -/
theorem versionRefDec_last [DecidableEq B] (last : s.refNum v = 1) (held : s.pBufHead v = some b) :
    (versionRefDec v s).freed.count b = s.freed.count b + 1 := by
  have zero : i32 (s.refNum v - 1) = 0 := by
    rw [last]
    exact i32_eq (by omega) (by omega)
  rw [versionRefDec_spec]
  dsimp only
  rw [if_pos zero, held]
  exact List.count_cons_self ..

omit [DecidableEq M] in
/-- Another version has another packet. -/
theorem versionRefDec_count [DecidableEq B] (other : s.pBufHead v ≠ some b) :
    (versionRefDec v s).freed.count b = s.freed.count b := by
  have none : ((if i32 (s.refNum v - 1) = 0 then (s.pBufHead v).toList else []).count b) = 0 := by
    split
    · cases held : s.pBufHead v with
      | none => rfl
      | some x =>
        have apart : x ≠ b := fun same => other (held.trans (congrArg some same))
        simp [apart]
    · rfl
  rw [versionRefDec_spec]
  dsimp only
  rw [List.count_append, none, Nat.zero_add]

theorem recvUpdate_eq (opened : ¬ IsEntityClosed s.entity)
    (unpacked : unpackUpdatePacketHead head = true) {new : MoonUpdateAck × Option V}
    (code : errorCode a.created s.entity s.entity.versionHead head = new) :
    recvUpdate a b false head s =
      let handed := handOn a b s.entity.versionHead new (versionRefInc s.entity.versionHead s)
      sendAck a handed.2.1 handed.2.2
        (dropVersion handed.2.1 new.2 (versionRefDec s.entity.versionHead handed.1)) := by
  have valid : ¬ (false = true ∨ unpackUpdatePacketHead head = false) := by simp [unpacked]
  subst code
  rw [recvUpdate, if_neg valid, if_neg opened]
  rfl

/-- A refused update is answered with a code of error, and its packet freed. -/
theorem refused_spec [DecidableEq B] (fresh : Fresh a b s) (opened : ¬ IsEntityClosed s.entity)
    (unpacked : unpackUpdatePacketHead head = true) (sent : a.sent = true)
    (refused : Refused a.created s.entity head) :
    Acknowledged (errorCode a.created s.entity s.entity.versionHead head).2 b s
      (recvUpdate a b false head s).1 := by
  rcases errorCode_cases a.created s.entity head with ⟨_, code, error, same⟩ | ⟨built, _⟩
  · let s₁ := versionRefDec s.entity.versionHead (versionRefInc s.entity.versionHead s)
    have handed : ∀ t : State V M B,
        handOn a b s.entity.versionHead (code, none) t = (t, code, some b) := by
      intro t
      cases code <;> rfl
    have result : (recvUpdate a b false head s).1 =
        { s₁ with acks := code :: s₁.acks, freed := b :: s₁.freed } := by
      rw [recvUpdate_eq opened unpacked same]
      simp only [handed, dropVersion, sendAck, Option.isNone_some, sent, freeTotalPacket_spec,
        Bool.false_eq_true, Bool.true_eq_false, if_false, Option.toList_some]
      rfl
    rw [result, same]
    refine ⟨⟨code, ?_, ?_⟩, .inl ⟨?_, ?_⟩, ?_⟩
    · exact congrArg (code :: ·) versionRefDec_acks
    · exact iff_of_false error fun ⟨v, wrong, _⟩ => Option.not_mem_none v wrong
    · refine (List.count_cons_self ..).trans (congrArg (· + 1) ?_)
      exact versionRefDec_count (fresh.packet s.entity.versionHead)
    · exact fun v wrong => absurd wrong (Option.not_mem_none v)
    · exact fun v wrong => absurd wrong (Option.not_mem_none v)
  · exact absurd refused built

/-- A refused version is not retired either. -/
theorem serverAdd_refused (base v : V) (e : ShadowEntity V M)
    (refused : (serverAddVersionToEntity base v e).2.1 ≠ .updateSuccess) :
    (serverAddVersionToEntity base v e).2.2 = none := by
  unfold serverAddVersionToEntity at refused ⊢
  split
  · rfl
  next opened =>
    rw [if_neg opened] at refused
    split
    · rfl
    next current =>
      rw [if_neg current] at refused
      split
      · rfl
      next added =>
        rw [added] at refused
        exact absurd rfl refused

/-- A version that is built is handed the packet, and no answer is sent. -/
theorem built_eq (opened : ¬ IsEntityClosed s.entity)
    (unpacked : unpackUpdatePacketHead head = true)
    (same : errorCode a.created s.entity s.entity.versionHead head = (.updateSuccess, some v)) :
    ∃ t code, (recvUpdate a b false head s).1 =
        dropVersion code (some v) (versionRefDec s.entity.versionHead t) ∧
      t.acks = s.acks ∧ t.freed = s.freed ∧ t.refNum = a.refNum ∧ t.refDecs = s.refDecs ∧
      t.pBufHead = Function.update s.pBufHead v (some b) ∧
      (code = .updateSuccess ∧ t.entity.versionHead = v ∨
        code ≠ .updateSuccess ∧ t.entity = a.entity ∧ t.markedOld = s.markedOld) := by
  let base := s.entity.versionHead
  let s₁ := { versionRefInc base s with pBufHead := Function.update s.pBufHead v (some b) }
  have result : (recvUpdate a b false head s).1 = dropVersion (addVersion a base v s₁).2 (some v)
      (versionRefDec base (addVersion a base v s₁).1) := by
    rw [recvUpdate_eq opened unpacked same]
    rfl
  refine ⟨(addVersion a base v s₁).1, (addVersion a base v s₁).2, result, ?_⟩
  have cases := serverAddVersionToEntity_cases base v a.entity
  have unretired := serverAdd_refused base v a.entity
  unfold addVersion
  generalize serverAddVersionToEntity base v a.entity = added at cases unretired
  obtain ⟨e', code, del⟩ := added
  dsimp only at cases unretired ⊢
  cases del with
  | none =>
    refine ⟨rfl, rfl, rfl, rfl, rfl, ?_⟩
    rcases cases with ⟨error, kept⟩ | ⟨ok, -, -, added⟩
    · exact .inr ⟨error, kept, rfl⟩
    · exact .inl ⟨ok, added.head⟩
  | some tmp =>
    refine ⟨rfl, rfl, rfl, rfl, rfl, ?_⟩
    rcases cases with ⟨error, -⟩ | ⟨ok, -, -, added⟩
    · exact absurd (unretired error) (Option.some_ne_none tmp)
    · exact .inl ⟨ok, added.head⟩

/-- A built version is added with its packet, or closed and freed with it. -/
theorem built_spec [DecidableEq B] (fresh : Fresh a b s) (opened : ¬ IsEntityClosed s.entity)
    (unpacked : unpackUpdatePacketHead head = true) (created : a.created = .version v)
    (same : errorCode a.created s.entity s.entity.versionHead head = (.updateSuccess, some v)) :
    let s' := (recvUpdate a b false head s).1
    s'.acks = s.acks ∧
      (s'.entity.versionHead = v ∧ s'.pBufHead v = some b ∧
          s'.freed.count b = s.freed.count b ∨
        s'.entity.versionHead ≠ v ∧ s'.freed.count b = s.freed.count b + 1 ∧
          s'.markedOld v = s.markedOld v + 1 ∧ s'.refDecs v = s.refDecs v + 1) := by
  obtain ⟨t, code, result, acks, freed, refNum, refDecs, pBufHead, outcome⟩ :=
    built_eq (a := a) (b := b) opened unpacked same
  obtain ⟨notBase, notHead, single⟩ := fresh.version v created
  have other : t.pBufHead s.entity.versionHead ≠ some b := by
    rw [pBufHead, Function.update_of_ne notBase.symm]
    exact fresh.packet s.entity.versionHead
  have held : t.pBufHead v = some b := by
    rw [pBufHead]
    exact Function.update_self ..
  have count := versionRefDec_count other
  obtain ⟨refDecs', refNum'⟩ := versionRefDec_apart (s := t) notBase.symm
  dsimp only
  rw [result]
  rcases outcome with ⟨ok, entered⟩ | ⟨error, kept, marks⟩
  · rw [dropVersion, if_pos ok, versionRefDec_acks, versionRefDec_entity, versionRefDec_pBufHead]
    exact ⟨acks, .inl ⟨entered, held, count.trans (by rw [freed])⟩⟩
  · let u := setVersionStatusOld v (versionRefDec s.entity.versionHead t)
    have last : u.refNum v = 1 := by
      rw [← single, ← refNum]
      exact refNum'
    have owned : u.pBufHead v = some b := by
      rw [← held]
      exact congrFun versionRefDec_pBufHead v
    have dropped := versionRefDec_last last owned
    rw [dropVersion, if_neg error, versionRefDec_acks, versionRefDec_entity,
      versionRefDec_markedOld]
    refine ⟨versionRefDec_acks.trans acks, .inr ⟨?_, ?_, ?_, ?_⟩⟩
    · rw [setVersionStatusOld, versionRefDec_entity, kept]
      exact notHead.symm
    · rw [dropped, ← freed, ← count]
      rfl
    · rw [setVersionStatusOld]
      dsimp only
      rw [Function.update_self, versionRefDec_markedOld, marks]
    · rw [versionRefDec_refDecs, ← refDecs, ← refDecs']
      rfl

/-- Whatever the outcome, the packet and a version that is not added are done with once. -/
theorem update_releases [DecidableEq B] (fresh : Fresh a b s) (opened : ¬ IsEntityClosed s.entity)
    (unpacked : unpackUpdatePacketHead head = true) (sent : a.sent = true) :
    let built := (errorCode a.created s.entity s.entity.versionHead head).2
    let s' := (recvUpdate a b false head s).1
    ((s'.freed.count b = s.freed.count b + 1 ∧ ∀ v ∈ built, s'.entity.versionHead ≠ v) ∨
      (s'.freed.count b = s.freed.count b ∧
        ∃ v ∈ built, s'.entity.versionHead = v ∧ s'.pBufHead v = some b)) ∧
    ∀ v ∈ built, s'.entity.versionHead ≠ v →
      s'.markedOld v = s.markedOld v + 1 ∧ s'.refDecs v = s.refDecs v + 1 := by
  rcases errorCode_cases a.created s.entity head with ⟨refused, _⟩ | ⟨_, v, created, same⟩
  · have acknowledged := refused_spec fresh opened unpacked sent refused
    exact ⟨acknowledged.packet, acknowledged.closed⟩
  · have outcome := (built_spec fresh opened unpacked created same).2
    dsimp only at outcome ⊢
    rw [same]
    rcases outcome with ⟨entered, held, count⟩ | ⟨out, count, marks, drops⟩
    · refine ⟨.inr ⟨count, v, rfl, entered, held⟩, ?_⟩
      rintro w ⟨⟩ wrong
      exact absurd entered wrong
    · refine ⟨.inl ⟨count, ?_⟩, ?_⟩
      · rintro w ⟨⟩
        exact out
      · rintro w ⟨⟩ -
        exact ⟨marks, drops⟩

/-- An update is acknowledged with its outcome exactly when it is refused before a version is
built. -/
theorem acknowledged_iff_refused [DecidableEq B] (fresh : Fresh a b s)
    (opened : ¬ IsEntityClosed s.entity) (unpacked : unpackUpdatePacketHead head = true)
    (sent : a.sent = true) :
    Acknowledged (errorCode a.created s.entity s.entity.versionHead head).2 b s
        (recvUpdate a b false head s).1 ↔ Refused a.created s.entity head := by
  constructor
  · rintro ⟨⟨code, acks, -⟩, -, -⟩
    by_contra built
    rcases errorCode_cases a.created s.entity head with ⟨refused, _⟩ | ⟨_, v, created, same⟩
    · exact built refused
    · have silent := (built_spec fresh opened unpacked created same).1
      rw [silent] at acks
      exact List.cons_ne_self code s.acks acks.symm
  · exact refused_spec fresh opened unpacked sent

end

section examples

/-- An entity whose one version has number 0 and md5 0, without packets. -/
def exampleState : State Nat Nat Nat :=
  ⟨⟨0, 0, [], 0, 0, 0, none, 1, 1, 0, fun _ => ⟨none, none⟩, fun _ => ⟨0, 0, none, none⟩⟩,
    fun _ => 1, fun _ => 0, fun _ => 0, fun _ => none, [], []⟩

/-- Version 1 can be built, and no other thread comes between. -/
def exampleAnswers : Answers Nat Nat := ⟨.version 1, exampleState.entity, fun _ => 1, true⟩

theorem example_fresh : Fresh exampleAnswers 7 exampleState where
  packet _ := (Option.some_ne_none 7).symm
  version := by
    rintro v ⟨⟩
    exact ⟨by decide, by decide, rfl⟩

/-- An update on another md5 is acknowledged as too old. -/
theorem acknowledged_iff_refused_old : Acknowledged
    (errorCode exampleAnswers.created exampleState.entity 0 ⟨0, 1, 5, 6, 2⟩).2 7 exampleState
    (recvUpdate exampleAnswers 7 false ⟨0, 1, 5, 6, 2⟩ exampleState).1 := by
  have refused : Refused exampleAnswers.created exampleState.entity ⟨0, 1, 5, 6, 2⟩ :=
    .inl (by decide)
  exact (acknowledged_iff_refused example_fresh (by decide) rfl rfl).mpr refused

/-- An update of version 0 to version 1 is taken in, and no answer is sent. -/
theorem success_not_acknowledged : Fresh exampleAnswers 7 exampleState ∧
    ¬ IsEntityClosed exampleState.entity ∧
    unpackUpdatePacketHead (M := Nat) ⟨0, 1, 0, 6, 2⟩ = true ∧ exampleAnswers.sent = true ∧
    (recvUpdate exampleAnswers 7 false ⟨0, 1, 0, 6, 2⟩ exampleState).1.entity.versionHead = 1 ∧
    ¬ Acknowledged (some 1) 7 exampleState
      (recvUpdate exampleAnswers 7 false ⟨0, 1, 0, 6, 2⟩ exampleState).1 := by
  have silent : (recvUpdate exampleAnswers 7 false ⟨0, 1, 0, 6, 2⟩ exampleState).1.acks = [] := by
    with_unfolding_all rfl
  refine ⟨example_fresh, by decide, rfl, rfl, by with_unfolding_all rfl, ?_⟩
  rintro ⟨⟨code, acks, -⟩, -, -⟩
  rw [silent] at acks
  exact List.cons_ne_nil _ _ acks.symm

end examples
end MoonInWater.Sync.UpdateAck
