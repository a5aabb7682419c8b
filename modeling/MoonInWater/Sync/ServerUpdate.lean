import MoonInWater.Lib.Threads
import MoonInWater.Sync.VersionWindow

/-! The updates of the server: any number of server_recv_packet calls with a MOON_UPDATE packet,
each of which reads version_head in one section and adds its new version in another. -/
namespace MoonInWater.Sync.ServerUpdate
open Threads Chain DList VersionWindow

def hasNewId : Nat := 0x8

/-- The versions are numbered as they are allocated; `accepted` are the new versions with those
that they were built on, the newest first. -/
structure Shared (M : Type) where
  entity : ShadowEntity Nat M
  allocated : Nat
  accepted : List (Nat × Nat)

/-- Where a call stands: with its base version, with the version that it has created, with the
answer it sends, or refused without one. -/
inductive UpdatePc (M : Type) where
  | idle
  | based (head : UpdateHead M) (base : Nat)
  | created (base version : Nat)
  | acked (code : MoonUpdateAck)
  | packetError

/-- The steps of a call, with what _create_new_version fails with, and what other calls do to the
entity between them. -/
inductive Op (M : Type) where
  | update (head : UpdateHead M)
  | createNewVersion (failure : Option MoonUpdateAck)
  | add
  | others (status totalUserNum : Int) (notice : Option Nat)

variable {M : Type}

/-- unpack_update_packet_head accepts the head. -/
def unpackUpdatePacketHead (head : UpdateHead M) : Bool := decide (head.fromVersion < head.toVersion)

/-- A new version with the number and the md5 that its packet asks for. -/
def newVersion (head : UpdateHead M) (g : Shared M) : Shared M :=
  let info : VersionInfo Nat M := ⟨head.toVersion, head.toMd5, some head, none⟩
  { g with
    entity.versions := Function.update g.entity.versions g.allocated info
    entity.links := Function.update g.entity.links g.allocated loose
    allocated := g.allocated + 1 }

section
variable [DecidableEq M]

def step (op : Op M) (g : Shared M) (pc : UpdatePc M) : Option (Shared M × UpdatePc M) :=
  match pc, op with
  | .idle, .update head =>
    if unpackUpdatePacketHead head = false then some (g, .packetError)
    else if IsEntityClosed g.entity then some (g, .packetError)
    else some (g, .based head g.entity.versionHead)
  | .idle, .others status totalUserNum notice =>
    some ({ g with
      entity.status := status
      entity.totalUserNum := totalUserNum
      entity.curNoticeVersion := notice }, .idle)
  | .based head base, .createNewVersion failure =>
    if (g.entity.versions base).md5Sum ≠ head.fromMd5 then some (g, .acked .versionTooOld)
    else if (g.entity.versions base).version ≠ head.fromVersion ∨
        head.toVersion ≠ (head.fromVersion + 1) % 2 ^ 32 ∨ head.infoBits &&& hasNewId ≠ 0 then
      some (g, .acked .updateHeadError)
    else
      match failure with
      | none => some (newVersion head g, .created base g.allocated)
      | some .updateSuccess => none
      | some code => some (g, .acked code)
  | .created base version, .add =>
    let (entity, code, _) := serverAddVersionToEntity base version g.entity
    let accepted :=
      if code = .updateSuccess then (version, base) :: g.accepted else g.accepted
    some ({ g with entity := entity, accepted := accepted }, .acked code)
  | _, _ => none

def protocol : Program (Shared M) (UpdatePc M) Unit (Op M) where
  start _ g := some (g, .idle)
  step := step

end

/-- The versions of the entity, the newest first; `old` are those before the run. -/
def history (old : List Nat) (g : Shared M) : List Nat := g.accepted.map Prod.fst ++ old

/-- The version was built on `base`, as its packet says. -/
def Follows (e : ShadowEntity Nat M) (v base : Nat) : Prop :=
  (e.versions v).version = (e.versions base).version + 1 ∧ (e.versions v).version < 2 ^ 32 ∧
    ∃ head ∈ (e.versions v).packet, head.fromMd5 = (e.versions base).md5Sum ∧
      head.toVersion = (e.versions v).version

/-- The call has created the version `v` and not yet handed it on. -/
def UpdatePc.creates (v : Nat) : UpdatePc M → Nat
  | .created _ w => if w = v then 1 else 0
  | _ => 0

def UpdatePc.Ok (old : List Nat) (g : Shared M) : UpdatePc M → Prop
  | .based head base => base ∈ history old g ∧ head.fromVersion < head.toVersion
  | .created base v => base ∈ history old g ∧ v < g.allocated ∧ Follows g.entity v base
  | _ => True

/-- An entity with the versions `old`, before any update. -/
structure Initial (old : List Nat) (c : Config (Shared M) (UpdatePc M)) : Prop where
  linked : Linked c.shared.entity.links none old none
  head : old.head? = some c.shared.entity.versionHead
  distinct : old.Nodup
  allocated : ∀ v ∈ old, v < c.shared.allocated
  lone : ∀ v ∉ old, c.shared.entity.links v = loose
  fresh : c.shared.accepted = []
  idle : ∀ pc ∈ c.calls, pc = .idle

/-- The history of the entity, and the versions under way to it. -/
structure History (old : List Nat) (g : Shared M) (creates : Nat → Nat) : Prop where
  linked : Linked g.entity.links none (history old g) none
  head : (history old g).head? = some g.entity.versionHead
  bases : g.accepted.map Prod.snd = (history old g).tail.take g.accepted.length
  follows : ∀ a ∈ g.accepted, Follows g.entity a.1 a.2
  once : ∀ v, creates v + (history old g).count v ≤ if v < g.allocated then 1 else 0
  lone : ∀ v ∉ history old g, g.entity.links v = loose

section
variable {old : List Nat} {g g' : Shared M} {creates : Nat → Nat} {v base : Nat}

theorem History.distinct (hist : History old g creates) : (history old g).Nodup := by
  rw [List.nodup_iff_count_le_one]
  intro v
  have once := hist.once v
  split at once <;> omega

theorem History.allocated (hist : History old g creates) (member : v ∈ history old g) :
    v < g.allocated := by
  by_contra unallocated
  have once := hist.once v
  have some := List.count_pos_iff.mpr member
  rw [if_neg unallocated] at once
  omega

/-- A version under way is not in the history. -/
theorem History.outside (hist : History old g creates) (some : 0 < creates v) :
    v ∉ history old g ∧ v < g.allocated := by
  have once := hist.once v
  constructor
  · intro member
    have counted := List.count_pos_iff.mpr member
    split at once <;> omega
  · by_contra unallocated
    rw [if_neg unallocated] at once
    omega

theorem Follows.congr {e e' : ShadowEntity Nat M} (follows : Follows e v base)
    (same : ∀ x, x = v ∨ x = base → (e'.versions x).version = (e.versions x).version ∧
      (e'.versions x).md5Sum = (e.versions x).md5Sum ∧
      (e'.versions x).packet = (e.versions x).packet) : Follows e' v base := by
  obtain ⟨number, small, head, sent, built, numbered⟩ := follows
  obtain ⟨number₁, _, packet₁⟩ := same v (.inl rfl)
  obtain ⟨number₂, md5₂, _⟩ := same base (.inr rfl)
  refine ⟨?_, ?_, head, ?_, ?_, ?_⟩
  · rw [number₁, number₂]
    exact number
  · rw [number₁]
    exact small
  · rw [packet₁]
    exact sent
  · rw [md5₂]
    exact built
  · rw [number₁]
    exact numbered

/-- The members of a pair in `accepted` are in the history. -/
theorem History.accepted_mem (hist : History old g creates) {a : Nat × Nat}
    (member : a ∈ g.accepted) : a.1 ∈ history old g ∧ a.2 ∈ history old g := by
  constructor
  · exact List.mem_append_left _ (List.mem_map_of_mem member)
  · have base : a.2 ∈ g.accepted.map Prod.snd := List.mem_map_of_mem member
    rw [hist.bases] at base
    exact List.mem_of_mem_tail (List.mem_of_mem_take base)

/-- A new version changes nothing of the others. -/
theorem newVersion_versions (head : UpdateHead M) {x : Nat} (other : x ≠ g.allocated) :
    (newVersion head g).entity.versions x = g.entity.versions x ∧
      (newVersion head g).entity.links x = g.entity.links x :=
  ⟨Function.update_of_ne other _ _, Function.update_of_ne other _ _⟩

theorem History.newVersion (hist : History old g creates) (head : UpdateHead M) :
    History old (newVersion head g)
      fun v => (if g.allocated = v then 1 else 0) + creates v := by
  have apart : ∀ x ∈ history old g, x ≠ g.allocated := fun x member =>
    Nat.ne_of_lt (hist.allocated member)
  refine ⟨?_, hist.head, hist.bases, fun a member => ?_, fun v => ?_, fun v outside => ?_⟩
  · exact hist.linked.congr fun x member => (newVersion_versions head (apart x member)).2
  · obtain ⟨first, second⟩ := hist.accepted_mem member
    apply (hist.follows a member).congr
    rintro x (rfl | rfl)
    · rw [(newVersion_versions head (apart _ first)).1]
      exact ⟨rfl, rfl, rfl⟩
    · rw [(newVersion_versions head (apart _ second)).1]
      exact ⟨rfl, rfl, rfl⟩
  · have once := hist.once v
    have same : (history old (ServerUpdate.newVersion head g)).count v =
      (history old g).count v := rfl
    have more : (ServerUpdate.newVersion head g).allocated = g.allocated + 1 := rfl
    rw [same, more]
    by_cases new : g.allocated = v
    · rw [if_neg (by omega)] at once
      rw [if_pos new, if_pos (by omega)]
      omega
    · rw [if_neg new]
      split at once
      · rw [if_pos (by omega)]
        omega
      · split <;> omega
  · by_cases same : v = g.allocated
    · subst same
      exact Function.update_self ..
    · rw [(newVersion_versions head same).2]
      exact hist.lone v outside

/-- A version under way is taken in on the newest one. -/
theorem History.added [DecidableEq M] (hist : History old g fun x => (if v = x then 1 else 0) + creates x)
    {e' : ShadowEntity Nat M} {key : M} (current : g.entity.versionHead = base)
    (follows : Follows g.entity v base) (added : Added key v g.entity e') :
    History old { g with entity := e', accepted := (v, base) :: g.accepted } creates := by
  obtain ⟨outside, _⟩ := hist.outside (v := v) (by rw [if_pos rfl]; omega)
  obtain ⟨linked, frame⟩ :=
    dlistInsert_linked hist.linked (hist.lone v outside) hist.distinct outside
  rw [hist.head, ← added.links] at linked frame
  have grown : history old { g with entity := e', accepted := (v, base) :: g.accepted } =
    v :: history old g := rfl
  refine ⟨linked, congrArg some added.head.symm, ?_, ?_, fun x => ?_, fun x other => ?_⟩
  · have first : (history old g).take (g.accepted.length + 1) =
        base :: (history old g).tail.take g.accepted.length := by
      obtain ⟨rest, split⟩ := List.head?_eq_some_iff.mp (hist.head.trans (congrArg some current))
      rw [split]
      rfl
    rw [grown, List.tail_cons, List.length_cons, first, List.map_cons, hist.bases]
  · intro a member
    have same : Follows g.entity a.1 a.2 := by
      rcases List.mem_cons.mp member with rfl | member
      · exact follows
      · exact hist.follows a member
    exact same.congr fun x _ => added.versions x
  · have once := hist.once x
    rw [grown, List.count_cons]
    by_cases same : v = x
    · rw [if_pos same] at once
      rw [if_pos (beq_iff_eq.mpr same)]
      dsimp only at once ⊢
      omega
    · rw [if_neg same] at once
      rw [if_neg fun other => same (beq_iff_eq.mp other)]
      dsimp only at once ⊢
      omega
  · rw [grown] at other
    have outer := frame x other
    dsimp only
    rw [outer]
    exact hist.lone x fun member => other (List.mem_cons_of_mem _ member)

/-- A state with the same history and at least the same versions. -/
structure Extends (old : List Nat) (g g' : Shared M) : Prop where
  history : ∀ v ∈ history old g, v ∈ ServerUpdate.history old g'
  allocated : g.allocated ≤ g'.allocated
  versions : ∀ x < g.allocated, (g'.entity.versions x).version = (g.entity.versions x).version ∧
    (g'.entity.versions x).md5Sum = (g.entity.versions x).md5Sum ∧
    (g'.entity.versions x).packet = (g.entity.versions x).packet

theorem Extends.refl (g : Shared M) : Extends old g g :=
  ⟨fun _ => id, Nat.le_refl _, fun _ _ => ⟨rfl, rfl, rfl⟩⟩

theorem UpdatePc.Ok.extends {pc : UpdatePc M} (ok : pc.Ok old g) (hist : History old g creates)
    (more : Extends old g g') : pc.Ok old g' := by
  cases pc with
  | based head base => exact ⟨more.history base ok.1, ok.2⟩
  | created base v =>
    obtain ⟨member, allocated, follows⟩ := ok
    refine ⟨more.history base member, Nat.lt_of_lt_of_le allocated more.allocated, ?_⟩
    apply follows.congr
    rintro x (rfl | rfl)
    · exact more.versions _ allocated
    · exact more.versions _ (hist.allocated member)
  | _ => trivial

/-- What a step of a call leaves, where `k` counts the versions under way in the other calls. -/
structure Outcome [DecidableEq M] (old : List Nat) (g g' : Shared M) (pc pc' : UpdatePc M)
    (k : Nat → Nat) : Prop where
  hist : History old g' fun v => pc'.creates v + k v
  ok : pc'.Ok old g'
  more : Extends old g g'
  accepts : (g'.accepted = g.accepted ∧ g'.entity.versionTable = g.entity.versionTable) ∨
    ∃ v, pc = .created g.entity.versionHead v ∧
      g'.accepted = (v, g.entity.versionHead) :: g.accepted ∧
      ∀ m, lookup g'.entity.versionTable m =
        if (g.entity.versions g.entity.versionHead).md5Sum = m then some v
        else lookup g.entity.versionTable m

theorem History.weaken (hist : History old g creates) {creates' : Nat → Nat}
    (fewer : ∀ v, creates' v ≤ creates v) : History old g creates' where
  linked := hist.linked
  head := hist.head
  bases := hist.bases
  follows := hist.follows
  once v := Nat.le_trans (Nat.add_le_add_right (fewer v) _) (hist.once v)
  lone := hist.lone

variable [DecidableEq M] {k : Nat → Nat}

theorem newVersion_outcome {head : UpdateHead M} (hist : History old g k)
    (ok : UpdatePc.Ok old g (.based head base))
    (md5 : (g.entity.versions base).md5Sum = head.fromMd5)
    (number : (g.entity.versions base).version = head.fromVersion)
    (next : head.toVersion = (head.fromVersion + 1) % 2 ^ 32) :
    Outcome old g (newVersion head g) (.based head base) (.created base g.allocated) k := by
  obtain ⟨member, grows⟩ := ok
  have apart : base ≠ g.allocated := Nat.ne_of_lt (hist.allocated member)
  have new : (newVersion head g).entity.versions g.allocated =
      ⟨head.toVersion, head.toMd5, some head, none⟩ := Function.update_self ..
  have old : (newVersion head g).entity.versions base = g.entity.versions base :=
    (newVersion_versions head apart).1
  refine ⟨hist.newVersion head, ⟨member, Nat.lt_succ_self _, ?_, ?_, head, ?_, ?_, ?_⟩, ⟨fun _ => id,
    Nat.le_succ _, fun x less => ?_⟩, .inl ⟨rfl, rfl⟩⟩
  · rw [new, old, number]
    dsimp only
    omega
  · rw [new]
    dsimp only
    omega
  · rw [new]
    rfl
  · rw [old]
    exact md5.symm
  · rw [new]
  · rw [(newVersion_versions head (Nat.ne_of_lt less)).1]
    exact ⟨rfl, rfl, rfl⟩

variable {op : Op M} {pc pc' : UpdatePc M}

theorem step_outcome (hist : History old g fun v => pc.creates v + k v) (ok : pc.Ok old g)
    (acted : step op g pc = some (g', pc')) : Outcome old g g' pc pc' k := by
  cases pc with
  | idle =>
    cases op with
    | update head =>
      simp only [step] at acted
      split at acted
      · cases acted
        exact ⟨hist, trivial, .refl g, .inl ⟨rfl, rfl⟩⟩
      next accepted =>
        have grows : head.fromVersion < head.toVersion := by
          simpa [unpackUpdatePacketHead] using accepted
        split at acted
        · cases acted
          exact ⟨hist, trivial, .refl g, .inl ⟨rfl, rfl⟩⟩
        · cases acted
          exact ⟨hist, ⟨List.mem_of_head? hist.head, grows⟩, .refl _, .inl ⟨rfl, rfl⟩⟩
    | others status totalUserNum notice =>
      cases acted
      obtain ⟨linked, head, bases, follows, once, lone⟩ := hist
      exact ⟨⟨linked, head, bases, follows, once, lone⟩, trivial,
        ⟨fun _ => id, Nat.le_refl _, fun _ _ => ⟨rfl, rfl, rfl⟩⟩, .inl ⟨rfl, rfl⟩⟩
    | _ => cases acted
  | based head base =>
    cases op with
    | createNewVersion failure =>
      simp only [step] at acted
      split at acted
      · cases acted
        exact ⟨hist, trivial, .refl _, .inl ⟨rfl, rfl⟩⟩
      next md5 =>
        split at acted
        · cases acted
          exact ⟨hist, trivial, .refl _, .inl ⟨rfl, rfl⟩⟩
        next fits =>
          rw [not_or, not_or, Decidable.not_not, Decidable.not_not] at fits
          cases failure with
          | none =>
            cases acted
            simp only [UpdatePc.creates, Nat.zero_add] at hist
            exact newVersion_outcome hist ok (Decidable.not_not.mp md5) fits.1 fits.2.1
          | some code =>
            cases code with
            | updateSuccess => cases acted
            | _ =>
              cases acted
              exact ⟨hist, trivial, .refl _, .inl ⟨rfl, rfl⟩⟩
    | _ => cases acted
  | created base v =>
    cases op with
    | add =>
      have follows := ok.2.2
      have cases := serverAddVersionToEntity_cases base v g.entity
      simp only [step] at acted
      generalize serverAddVersionToEntity base v g.entity = result at cases acted
      obtain ⟨entity, code, del⟩ := result
      rcases cases with ⟨refused, same⟩ | ⟨taken, _, current, added⟩
      · dsimp only at refused same acted
        rw [if_neg refused, same] at acted
        cases acted
        refine ⟨hist.weaken fun x => ?_, trivial, .refl _, .inl ⟨rfl, rfl⟩⟩
        exact Nat.add_le_add_right (Nat.zero_le _) _
      · dsimp only at taken added acted
        rw [if_pos taken] at acted
        cases acted
        have grown := hist.added current follows added
        refine ⟨grown.weaken fun x => ?_, trivial, ⟨fun x member => List.mem_cons_of_mem _ member,
          Nat.le_refl _, fun x _ => added.versions x⟩, .inr ⟨v, ?_⟩⟩
        · simp only [UpdatePc.creates, Nat.zero_add, Nat.le_refl]
        · rw [current]
          exact ⟨rfl, rfl, added.table⟩
    | _ => cases acted
  | _ => cases acted

end

structure Invariant (old : List Nat) (c : Config (Shared M) (UpdatePc M)) : Prop where
  hist : History old c.shared fun v => c.total (UpdatePc.creates v)
  calls : ∀ pc ∈ c.calls, pc.Ok old c.shared

theorem Initial.invariant {old : List Nat} {c : Config (Shared M) (UpdatePc M)}
    (initial : Initial old c) : Invariant old c := by
  obtain ⟨linked, head, distinct, allocated, lone, fresh, idle⟩ := initial
  have same : history old c.shared = old := by rw [history, fresh]; rfl
  have none : ∀ v, c.total (UpdatePc.creates v) = 0 := by
    intro v
    by_contra some
    obtain ⟨pc, member, positive⟩ := exists_of_total_pos (Nat.pos_of_ne_zero some)
    rw [idle pc member] at positive
    exact absurd positive (Nat.lt_irrefl 0)
  refine ⟨⟨?_, ?_, ?_, ?_, fun v => ?_, ?_⟩, fun pc member => ?_⟩
  · rw [same]
    exact linked
  · rw [same]
    exact head
  · rw [fresh]
    rfl
  · rw [fresh]
    exact fun a member => absurd member List.not_mem_nil
  · rw [same, none, Nat.zero_add]
    have most := List.nodup_iff_count_le_one.mp distinct v
    by_cases member : v ∈ old
    · rw [if_pos (allocated v member)]
      exact most
    · rw [List.count_eq_zero_of_not_mem member]
      exact Nat.zero_le _
  · rw [same]
    exact lone
  · rw [idle pc member]
    trivial

variable [DecidableEq M]

theorem start_invariant {old : List Nat} {g g' : Shared M} {pc : UpdatePc M}
    {ls : List (UpdatePc M)} {u : Unit} (inv : Invariant old ⟨g, ls⟩)
    (started : protocol.start u g = some (g', pc)) : Invariant old ⟨g', ls ++ [pc]⟩ := by
  cases started
  obtain ⟨hist, calls⟩ := inv
  refine ⟨hist.weaken fun v => ?_, forall_start calls trivial fun _ => id⟩
  rw [total_start _ g g]
  exact Nat.le_refl _

theorem step_invariant {old : List Nat} {g g' : Shared M} {pc pc' : UpdatePc M} {op : Op M}
    {pre post : List (UpdatePc M)} (inv : Invariant old ⟨g, pre ++ pc :: post⟩)
    (acted : step op g pc = some (g', pc')) :
    Invariant old ⟨g', pre ++ pc' :: post⟩ ∧
      Outcome old g g' pc pc' fun v => others (UpdatePc.creates v) pre post := by
  obtain ⟨hist, calls⟩ := inv
  simp only [total_split] at hist
  have outcome := step_outcome hist (calls pc (by simp)) acted
  have kept := forall_split calls outcome.ok fun q _ ok => ok.extends hist outcome.more
  refine ⟨⟨?_, kept⟩, outcome⟩
  simp only [total_split]
  exact outcome.hist

theorem run_invariant {old : List Nat} {c c' : Config (Shared M) (UpdatePc M)}
    (inv : Invariant old c) (run : protocol.Reaches c c') : Invariant old c' :=
  Program.Reaches.invariant inv (fun inv started => start_invariant inv started)
    (fun inv acted => (step_invariant inv acted).1) run

/-- The accepted versions are one chain from version_head, each built on the next one of it with
the next number; no two have the same base, and one is accepted on the head of that moment. -/
theorem server_history_linear {old : List Nat} {c c' : Config (Shared M) (UpdatePc M)}
    (initial : Initial old c) (run : protocol.Reaches c c') :
    Linked c'.shared.entity.links none (history old c'.shared) none ∧
      (history old c'.shared).head? = some c'.shared.entity.versionHead ∧
      c'.shared.accepted.map Prod.snd =
        (history old c'.shared).tail.take c'.shared.accepted.length ∧
      (∀ a ∈ c'.shared.accepted, (c'.shared.entity.versions a.1).version =
        (c'.shared.entity.versions a.2).version + 1) ∧
      (c'.shared.accepted.map Prod.snd).Nodup ∧
      ∀ op pre pc post g' pc', c'.calls = pre ++ pc :: post →
        step op c'.shared pc = some (g', pc') →
        g'.accepted = c'.shared.accepted ∨
          ∃ v, pc = .created c'.shared.entity.versionHead v ∧
            g'.accepted = (v, c'.shared.entity.versionHead) :: c'.shared.accepted := by
  have inv := run_invariant initial.invariant run
  have hist := inv.hist
  refine ⟨hist.linked, hist.head, hist.bases, fun a member => (hist.follows a member).1, ?_, ?_⟩
  · rw [hist.bases]
    exact ((hist.distinct.tail).sublist (List.take_sublist _ _))
  · intro op pre pc post g' pc' split acted
    obtain ⟨g, calls⟩ := c'
    dsimp only at split acted
    subst split
    rcases (step_invariant inv acted).2.accepts with ⟨same, _⟩ | ⟨v, built, taken, _⟩
    · exact .inl same
    · exact .inr ⟨v, built, taken⟩

/-- A server with its root version, number 0; the md5 are numbers. -/
def rootOnly : Config (Shared Nat) (UpdatePc Nat) :=
  ⟨⟨rooted, 1, []⟩, []⟩

theorem rootOnly_initial : Initial [0] rootOnly :=
  ⟨⟨rfl, trivial⟩, rfl, by decide, by decide, fun _ _ => rfl, rfl, by simp [rootOnly]⟩

/-- Two updates of the root version: one is accepted. -/
theorem server_history_linear_race : ∃ c, protocol.Reaches rootOnly c ∧
    c.shared.accepted = [(1, 0)] ∧ (c.shared.accepted.map Prod.snd).Nodup := by
  have executed : ((protocol.execWhere (fun _ _ => true) [.inl (), .inl (),
      .inr (0, .update ⟨0, 1, 0, 7, 0⟩), .inr (1, .update ⟨0, 1, 0, 8, 0⟩),
      .inr (0, .createNewVersion none), .inr (1, .createNewVersion none),
      .inr (0, .add), .inr (1, .add)] rootOnly).map (·.shared.accepted)) = some [(1, 0)] := by
    with_unfolding_all rfl
  obtain ⟨c, done, accepted⟩ := Option.map_eq_some_iff.mp executed
  have run := (Program.execWhere_reaches done).reaches
  obtain ⟨_, _, _, _, distinct, _⟩ := server_history_linear rootOnly_initial run
  exact ⟨c, run, accepted, distinct⟩

end MoonInWater.Sync.ServerUpdate
