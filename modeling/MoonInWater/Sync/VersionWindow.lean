import MoonInWater.Lib.CInt
import MoonInWater.Common.DList

/-! The versions of an entity, linked from the newest at version_head, of which those up to
version_tail are alive. -/
namespace MoonInWater.Sync.VersionWindow
open CInt Chain DList

def serverMaxVersionNum : Int := 128

def noticeing : Nat := 0x1

/-- packet_update_head_s; `M` are the values of md5. -/
structure UpdateHead (M : Type) where
  fromVersion : Nat
  toVersion : Nat
  fromMd5 : M
  toMd5 : M
  infoBits : Nat
deriving DecidableEq

/-- version_info_s as to the history of its entity; `packet` is the head of its update packet
p_buf_head. _add_version_to_entity writes to a field version_tail of it, which is declared in
shadow_entity_s only. -/
structure VersionInfo (V M : Type) where
  version : Nat
  md5Sum : M
  packet : Option (UpdateHead M)
  versionTail : Option V

structure ShadowEntity (V M : Type) where
  status : Int
  totalUserNum : Int
  versionTable : List (M × V)
  rootVersion : V
  versionHead : V
  versionTail : V
  curNoticeVersion : Option V
  versionAliveNum : Int
  versionNum : Int
  noticeStatus : Nat
  links : V → Link V
  versions : V → VersionInfo V M

def IsEntityClosed {V M : Type} (e : ShadowEntity V M) : Prop := e.status < 0 ∧ e.totalUserNum = 0

instance {V M : Type} (e : ShadowEntity V M) : Decidable (IsEntityClosed e) := instDecidableAnd

variable {V M : Type} [DecidableEq V] [DecidableEq M]

/-- hash_search2 in a table whose lists hold the newest entries first. -/
def hashSearch2 (table : List (M × V)) (key : M) (data : Option V) :
    List (M × V) × Option V :=
  match table.find? fun entry => entry.1 = key, data with
  | some entry, _ => (table, some entry.2)
  | none, some v => ((key, v) :: table, some v)
  | none, none => (table, none)

/-- The version is found under its key from now on, before one that had the same key. -/
def addToTable (key : M) (v : V) (e : ShadowEntity V M) : Option (ShadowEntity V M) :=
  match hashSearch2 e.versionTable key (some v) with
  | (_, none) => none
  | (table, some found) =>
    some { e with versionTable := if found = v then table else (key, v) :: table }

/-- The server gives a key, the shadow does not. -/
def enterVersion (key : Option M) (v : V) (e : ShadowEntity V M) : Option (ShadowEntity V M) :=
  match key with
  | none => some e
  | some key => addToTable key v e

/-- What _add_version_to_entity does beyond the limit, with the version to be retired; the server
moves cur_notice_version upwards only. -/
def retireTail (v : V) (e : ShadowEntity V M) : ShadowEntity V M × Option V :=
  let e := { e with versionAliveNum := i32 (e.versionAliveNum - 1) }
  let tmp := e.versionTail
  -- the tail of the entity stays
  let info : VersionInfo V M := { e.versions v with versionTail := (e.links tmp).prev }
  let e : ShadowEntity V M := { e with versions := Function.update e.versions v info }
  let older : Bool := match e.curNoticeVersion with
    | none => true
    | some notice => decide ((e.versions tmp).version < (e.versions notice).version)
  (e, if tmp ≠ e.rootVersion ∧ older = true then some tmp else none)

/-- _add_version_to_entity; none when it returns -1. -/
def addVersionToEntity (key : Option M) (v : V) (maxNum : Int) (e : ShadowEntity V M) :
    Option (ShadowEntity V M × Option V) :=
  (enterVersion key v e).map fun (e : ShadowEntity V M) =>
    let e := { e with versionNum := i32 (e.versionNum + 1) }
    let e := { e with versionAliveNum := i32 (e.versionAliveNum + 1) }
    let e := { e with versionHead := v, links := dlistInsert (some e.versionHead) v e.links }
    if maxNum < e.versionAliveNum then retireTail v e else (e, none)

/-- The result of an update, as its sender is told. -/
inductive MoonUpdateAck where
  | updateSuccess
  | versionTooOld
  | updateHeadError
  | packetError
  | internalError
deriving DecidableEq

/-- server_add_version_to_entity, with the version to be retired. -/
def serverAddVersionToEntity (base v : V) (e : ShadowEntity V M) :
    ShadowEntity V M × MoonUpdateAck × Option V :=
  if IsEntityClosed e then (e, .internalError, none)
  else if e.versionHead ≠ base then (e, .versionTooOld, none)
  else
    match addVersionToEntity (some (e.versions base).md5Sum) v serverMaxVersionNum e with
    | none => (e, .internalError, none)
    | some (e, del) => ({ e with noticeStatus := e.noticeStatus ||| noticeing }, .updateSuccess, del)

/-- One call of _add_version_to_entity, after cur_notice_version has been moved. -/
structure Addition (V M : Type) where
  notice : Option V
  key : Option M
  version : V

/-- What a call is to do to an entity whose versions are `vs`, the newest first. -/
structure Meets (maxNum : Int) (vs : List V) (v : V) (e e' : ShadowEntity V M)
    (del : Option V) : Prop where
  bound : e'.versionAliveNum ≤ maxNum
  linked : Linked e'.links none (v :: vs) none
  head : ((v :: vs).take e'.versionAliveNum.toNat).head? = some e'.versionHead
  tail : ((v :: vs).take e'.versionAliveNum.toNat).getLast? = some e'.versionTail
  moves : if maxNum < e.versionAliveNum + 1 then
    (e'.links e.versionTail).prev = some e'.versionTail else e'.versionTail = e.versionTail
  out : del = if maxNum < e.versionAliveNum + 1 ∧ e.versionTail ≠ e.rootVersion ∧
    (∀ notice ∈ e.curNoticeVersion, (e.versions e.versionTail).version <
      (e.versions notice).version) then some e.versionTail else none

/-- Each call of a sequence does what it is to do. -/
def AllMeet (maxNum : Int) (vs : List V) (e : ShadowEntity V M) : List (Addition V M) → Prop
  | [] => True
  | a :: rest => ∃ e' del,
      addVersionToEntity a.key a.version maxNum { e with curNoticeVersion := a.notice } =
        some (e', del) ∧
      Meets maxNum vs a.version { e with curNoticeVersion := a.notice } e' del ∧
      AllMeet maxNum (a.version :: vs) e' rest

/-- Only the root version is there. -/
structure Initial (e : ShadowEntity V M) : Prop where
  head : e.versionHead = e.rootVersion
  tail : e.versionTail = e.rootVersion
  alive : e.versionAliveNum = 1
  lone : e.links e.rootVersion = loose

/-- All versions so far are alive. -/
structure Grown (vs : List V) (e : ShadowEntity V M) : Prop where
  linked : Linked e.links none vs none
  distinct : vs.Nodup
  head : vs.head? = some e.versionHead
  tail : vs.getLast? = some e.versionTail
  alive : e.versionAliveNum = vs.length

omit [DecidableEq V] [DecidableEq M] in
theorem Initial.grown {e : ShadowEntity V M} (initial : Initial e) : Grown [e.rootVersion] e where
  linked := .alone initial.lone
  distinct := List.nodup_singleton _
  head := congrArg some initial.head.symm
  tail := congrArg some initial.tail.symm
  alive := initial.alive

section
variable {e e' : ShadowEntity V M} {vs : List V} {v : V} {key : Option M} {maxNum : Int}
variable {del : Option V}

omit [DecidableEq V] [DecidableEq M] in
/-- A change of the table alone. -/
theorem Grown.same (grown : Grown vs e) (links : e'.links = e.links)
    (head : e'.versionHead = e.versionHead) (tail : e'.versionTail = e.versionTail)
    (alive : e'.versionAliveNum = e.versionAliveNum) : Grown vs e' := by
  obtain ⟨linked, distinct, head', tail', alive'⟩ := grown
  refine ⟨?_, distinct, ?_, ?_, ?_⟩
  · rw [links]
    exact linked
  · rw [head]
    exact head'
  · rw [tail]
    exact tail'
  · rw [alive]
    exact alive'

/-- The entry of a version in the table never fails. -/
theorem enterVersion_eq (key : Option M) (v : V) (e : ShadowEntity V M) :
    ∃ table, enterVersion key v e = some { e with versionTable := table } := by
  cases key with
  | none => exact ⟨_, rfl⟩
  | some key =>
    simp only [enterVersion, addToTable, hashSearch2]
    cases e.versionTable.find? fun entry => entry.1 = key with
    | none => exact ⟨_, rfl⟩
    | some entry => exact ⟨_, rfl⟩

/-- The version found under a key. -/
def lookup (table : List (M × V)) (key : M) : Option V := (hashSearch2 table key none).2

omit [DecidableEq V] in
theorem lookup_cons (table : List (M × V)) (k key : M) (v : V) :
    lookup ((k, v) :: table) key = if k = key then some v else lookup table key := by
  by_cases same : k = key
  · simp [lookup, hashSearch2, same]
  · simp only [lookup, hashSearch2, List.find?_cons, same, decide_false, if_false]
    cases table.find? fun entry => entry.1 = key <;> rfl

theorem addToTable_lookup {key : M} (entered : addToTable key v e = some e') (m : M) :
    lookup e'.versionTable m = if key = m then some v else lookup e.versionTable m := by
  unfold addToTable hashSearch2 at entered
  cases found : e.versionTable.find? fun entry => entry.1 = key with
  | none =>
    simp only [found] at entered
    cases entered
    exact lookup_cons _ _ _ _
  | some entry =>
    simp only [found] at entered
    cases entered
    dsimp only
    split
    next same =>
      by_cases here : key = m
      · subst here
        rw [if_pos rfl]
        simp [lookup, hashSearch2, found, same]
      · rw [if_neg here]
    · exact lookup_cons _ _ _ _

/-- What an addition does to the history of an entity. -/
structure Added (key : M) (v : V) (e e' : ShadowEntity V M) : Prop where
  links : e'.links = dlistInsert (some e.versionHead) v e.links
  head : e'.versionHead = v
  table : ∀ m, lookup e'.versionTable m = if key = m then some v else lookup e.versionTable m
  root : e'.rootVersion = e.rootVersion
  notice : e'.curNoticeVersion = e.curNoticeVersion
  versions : ∀ x, (e'.versions x).version = (e.versions x).version ∧
    (e'.versions x).md5Sum = (e.versions x).md5Sum ∧ (e'.versions x).packet = (e.versions x).packet

omit [DecidableEq M] in
theorem retireTail_versions (v x : V) (e : ShadowEntity V M) :
    ((retireTail v e).1.versions x).version = (e.versions x).version ∧
      ((retireTail v e).1.versions x).md5Sum = (e.versions x).md5Sum ∧
      ((retireTail v e).1.versions x).packet = (e.versions x).packet := by
  by_cases same : x = v
  · subst same
    simp [retireTail]
  · simp [retireTail, Function.update_of_ne same]

theorem addVersionToEntity_added {key : M}
    (added : addVersionToEntity (some key) v maxNum e = some (e', del)) : Added key v e e' := by
  obtain ⟨mid, entered, added⟩ := Option.map_eq_some_iff.mp added
  have found := addToTable_lookup entered
  obtain ⟨table, whole⟩ := enterVersion_eq (some key) v e
  cases whole.symm.trans entered
  dsimp only at added
  split at added
  · cases added
    exact ⟨rfl, rfl, found, rfl, rfl, fun x => retireTail_versions v x _⟩
  · cases added
    exact ⟨rfl, rfl, found, rfl, rfl, fun _ => ⟨rfl, rfl, rfl⟩⟩

/-- The server takes a version in when its base is the newest one. -/
theorem serverAddVersionToEntity_cases (base v : V) (e : ShadowEntity V M) :
    ((serverAddVersionToEntity base v e).2.1 ≠ .updateSuccess ∧
      (serverAddVersionToEntity base v e).1 = e) ∨
    ((serverAddVersionToEntity base v e).2.1 = .updateSuccess ∧ ¬ IsEntityClosed e ∧
      e.versionHead = base ∧
      Added (e.versions base).md5Sum v e (serverAddVersionToEntity base v e).1) := by
  unfold serverAddVersionToEntity
  split
  · exact .inl ⟨by simp, rfl⟩
  next opened =>
    split
    · exact .inl ⟨by simp, rfl⟩
    next current =>
      cases added : addVersionToEntity (some (e.versions base).md5Sum) v serverMaxVersionNum e with
      | none => exact .inl ⟨by simp, rfl⟩
      | some result =>
        obtain ⟨e', del⟩ := result
        obtain ⟨links, head, table, root, notice, versions⟩ := addVersionToEntity_added added
        refine .inr ⟨rfl, opened, Decidable.not_not.mp current, ?_⟩
        exact ⟨links, head, table, root, notice, versions⟩

/-- The entity after an addition within the limit. -/
theorem addVersionToEntity_within (key : Option M) (v : V) (grown : Grown vs e) (room : (vs.length : Int) < maxNum)
    (int : maxNum < 2 ^ 31) :
    ∃ table, addVersionToEntity key v maxNum e = some ({ e with
      versionTable := table
      versionNum := i32 (e.versionNum + 1)
      versionAliveNum := (vs.length + 1 : Nat)
      versionHead := v
      links := dlistInsert (some e.versionHead) v e.links }, none) := by
  have count : i32 (e.versionAliveNum + 1) = (vs.length + 1 : Nat) := by
    rw [grown.alive]
    exact i32_eq (by omega) (by omega)
  have limit : ¬ maxNum < (vs.length + 1 : Nat) := by omega
  obtain ⟨table, entered⟩ := enterVersion_eq key v e
  refine ⟨table, ?_⟩
  simp only [addVersionToEntity, entered, Option.map_some, count, if_neg limit]

/-- An addition leaves the tail of the entity where it is. -/
theorem addVersionToEntity_tail (added : addVersionToEntity key v maxNum e = some (e', del)) :
    e'.versionTail = e.versionTail := by
  obtain ⟨mid, entered, added⟩ := Option.map_eq_some_iff.mp added
  obtain ⟨table, whole⟩ := enterVersion_eq key v e
  cases whole.symm.trans entered
  dsimp only at added
  split at added <;> cases added <;> rfl

theorem within_meets (key : Option M) (grown : Grown vs e) (room : (vs.length : Int) < maxNum)
    (int : maxNum < 2 ^ 31) (fresh : v ∉ vs) (lone : e.links v = loose) :
    ∃ e', addVersionToEntity key v maxNum e = some (e', none) ∧
      Meets maxNum vs v e e' none ∧ Grown (v :: vs) e' ∧
      ∀ x ∉ v :: vs, e'.links x = e.links x := by
  obtain ⟨table, added⟩ := addVersionToEntity_within key v grown room int
  obtain ⟨linked, distinct, head, tail, alive⟩ := grown
  obtain ⟨linked', frame⟩ := dlistInsert_linked linked lone distinct fresh
  rw [head] at linked' frame
  have last : (v :: vs).getLast? = some e.versionTail := by
    cases vs with
    | nil => exact absurd head (by simp)
    | cons w ws => exact tail
  have all : (v :: vs).take (vs.length + 1 : Nat) = v :: vs := List.take_of_length_le (by simp)
  have within : ¬ maxNum < e.versionAliveNum + 1 := by omega
  refine ⟨_, added, ⟨?_, linked', ?_, ?_, ?_, ?_⟩, ⟨linked', ?_, rfl, last, rfl⟩, frame⟩
  · dsimp only
    omega
  · rfl
  · simp only [Int.toNat_natCast, all]
    exact last
  · rw [if_neg within]
  · rw [if_neg fun out => within out.1]
  · exact List.nodup_cons.mpr ⟨fresh, distinct⟩

/-- Beyond the limit the tail would have to move. -/
theorem beyond_fails (grown : Grown vs e) (full : (vs.length : Int) = maxNum)
    (added : addVersionToEntity key v maxNum e = some (e', del)) (fresh : v ∉ vs) :
    ¬ Meets maxNum vs v e e' del := by
  rintro ⟨_, linked, _, _, moves, _⟩
  rw [if_pos (by rw [grown.alive]; omega), addVersionToEntity_tail added] at moves
  obtain ⟨older, split⟩ := List.getLast?_eq_some_iff.mp grown.tail
  rw [split] at linked fresh
  have link : (e'.links e.versionTail).prev = (v :: older).getLast? := by
    have linked : Linked e'.links none ((v :: older) ++ e.versionTail :: []) none := linked
    rw [linked.at]
  rw [link] at moves
  have member := List.mem_of_getLast? moves
  have distinct := grown.distinct
  rw [split] at distinct
  rcases List.mem_cons.mp member with same | inside
  · rw [same] at fresh
    simp at fresh
  · exact (List.nodup_append.mp distinct).2.2 _ inside _ (List.mem_singleton_self _) rfl

end

/-- The calls of a sequence do what they are to do as long as the limit is not passed. -/
theorem allMeet_iff {e : ShadowEntity V M} {vs : List V} {maxNum : Int}
    {adds : List (Addition V M)} (grown : Grown vs e) (room : (vs.length : Int) ≤ maxNum)
    (int : maxNum < 2 ^ 31) (distinct : (adds.map (·.version)).Nodup)
    (fresh : ∀ a ∈ adds, a.version ∉ vs ∧ e.links a.version = loose) :
    AllMeet maxNum vs e adds ↔ (vs.length + adds.length : Int) ≤ maxNum := by
  induction adds generalizing e vs with
  | nil => simpa [AllMeet] using room
  | cons a rest ih =>
    obtain ⟨new, distinct'⟩ := List.nodup_cons.mp distinct
    obtain ⟨outside, lone⟩ := fresh a List.mem_cons_self
    have grown' : Grown vs { e with curNoticeVersion := a.notice } := grown.same rfl rfl rfl rfl
    by_cases within : (vs.length : Int) < maxNum
    · obtain ⟨e', added, meets, next, frame⟩ :=
        within_meets a.key grown' within int outside lone
      have fresh' : ∀ b ∈ rest, b.version ∉ a.version :: vs ∧ e'.links b.version = loose := by
        intro b member
        have apart : b.version ∉ a.version :: vs := by
          rw [List.mem_cons, not_or]
          refine ⟨fun same => new ?_, (fresh b (List.mem_cons_of_mem _ member)).1⟩
          exact List.mem_map.mpr ⟨b, member, same⟩
        exact ⟨apart, (frame _ apart).trans (fresh b (List.mem_cons_of_mem _ member)).2⟩
      have room' : ((a.version :: vs).length : Int) ≤ maxNum := by
        rw [List.length_cons]
        omega
      have goes := ih next room' distinct' fresh'
      have counts : ((a.version :: vs).length + rest.length : Int) =
          vs.length + (a :: rest).length := by
        simp only [List.length_cons]
        omega
      rw [counts] at goes
      constructor
      · rintro ⟨e'', del, added', _, all⟩
        rw [added] at added'
        cases added'
        exact goes.mp all
      · intro few
        exact ⟨e', none, added, meets, goes.mpr few⟩
    · constructor
      · rintro ⟨e', del, added, meets, _⟩
        exact absurd meets (beyond_fails grown' (by omega) added outside)
      · intro few
        simp only [List.length_cons] at few
        omega

/-- The window follows the additions until the first version has to leave it. -/
theorem alive_window {e : ShadowEntity V M} {maxNum : Int} {adds : List (Addition V M)}
    (initial : Initial e) (positive : 1 ≤ maxNum) (int : maxNum < 2 ^ 31)
    (distinct : (adds.map (·.version)).Nodup)
    (fresh : ∀ a ∈ adds, a.version ≠ e.rootVersion ∧ e.links a.version = loose) :
    AllMeet maxNum [e.rootVersion] e adds ↔ (adds.length : Int) < maxNum := by
  have fresh' : ∀ a ∈ adds, a.version ∉ [e.rootVersion] ∧ e.links a.version = loose := by
    intro a member
    exact ⟨by simp [(fresh a member).1], (fresh a member).2⟩
  rw [allMeet_iff initial.grown (by simpa using positive) int distinct fresh']
  simp only [List.length_singleton]
  omega

/-- An entity with its root version; a version is its number. -/
def rooted : ShadowEntity Nat Nat :=
  ⟨0, 0, [], 0, 0, 0, none, 1, 1, 0, fun _ => loose, fun v => ⟨v, v, none, none⟩⟩

theorem rooted_initial : Initial rooted := ⟨rfl, rfl, rfl, rfl⟩

/-- One version is added to two at most. -/
theorem alive_window_one : AllMeet 2 [0] rooted [⟨none, some 0, 1⟩] := by
  refine (alive_window rooted_initial (by decide) (by decide) (by decide) ?_).mpr (by decide)
  intro a member
  rw [List.mem_singleton.mp member]
  exact ⟨by decide, rfl⟩

/-- The tail stays at the root when a second version is added to two at most. -/
theorem alive_window_stuck :
    ¬ AllMeet 2 [0] rooted [⟨none, some 0, 1⟩, ⟨none, some 1, 2⟩] := by
  intro all
  have few := (allMeet_iff rooted_initial.grown (by decide) (by decide) (by decide) (by
    intro a member
    simp only [List.mem_cons, List.not_mem_nil, or_false] at member
    rcases member with rfl | rfl <;> exact ⟨by decide, rfl⟩)).mp all
  exact absurd few (by decide)

end MoonInWater.Sync.VersionWindow
