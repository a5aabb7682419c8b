import MoonInWater.Lib.CInt
import MoonInWater.Lib.Threads
import MoonInWater.Common.DList

/-! The close of a shadow entity: its sections under version_mutex, and entity_close_func,
which the section that closes the entity calls after it. -/
namespace MoonInWater.Sync.EntityClose
open CInt Threads Chain DList

/-- A node of the list of points: the head in the entity, or a point. -/
inductive Node (P : Type) where
  | head
  | point (p : P)
deriving DecidableEq

/-- shadow_entity_s as to its close, with the addresses of its first two fields. -/
structure ShadowEntity (P : Type) where
  statusAddr : Nat
  totalUserNumAddr : Nat
  status : Int
  totalUserNum : Int
  isShadow : Bool
  points : Node P → Link (Node P)
  pointsNum : Int
  nextNoticePoint : Option (Node P)

variable {P : Type}

def IsEntityClosed (e : ShadowEntity P) : Prop := e.status < 0 ∧ e.totalUserNum = 0

instance (e : ShadowEntity P) : Decidable (IsEntityClosed e) := instDecidableAnd

/-- IS_ENTITY_CLOSED( &p_entity ): the operator & applies to the fields, so that their addresses
are compared. -/
def IsEntityClosedRef (e : ShadowEntity P) : Prop := e.statusAddr < 0 ∧ e.totalUserNumAddr = 0

instance (e : ShadowEntity P) : Decidable (IsEntityClosedRef e) := instDecidableAnd

def noticeUserNumInc (e : ShadowEntity P) : ShadowEntity P × Int :=
  if IsEntityClosedRef e then (e, -1)
  else ({ e with totalUserNum := i32 (e.totalUserNum + 1) }, 0)

/-- With whether entity_close_func is to be called, as the next three. -/
def noticeUserNumDec (e : ShadowEntity P) : ShadowEntity P × Bool :=
  if IsEntityClosedRef e then (e, false)
  else
    let e := { e with totalUserNum := i32 (e.totalUserNum - 1) }
    (e, decide (IsEntityClosed e))

def closeEntity (e : ShadowEntity P) : ShadowEntity P × Bool :=
  if IsEntityClosed e then (e, false)
  else
    let e := { e with status := -1 }
    (e, decide (IsEntityClosed e))

section
variable [DecidableEq P]

/-- dlist_prev or dlist_next of the point is there. -/
def isPointInEntity (e : ShadowEntity P) (p : P) : Bool :=
  (e.points (.point p)).prev.isSome || (e.points (.point p)).next.isSome

def addPointToEntity (p : P) (e : ShadowEntity P) : ShadowEntity P × Int :=
  if IsEntityClosed e then (e, -1)
  else if isPointInEntity e p then (e, -1)
  else
    let e := { e with points := dlistAppend (e.points .head).next (Node.point p) e.points }
    let e := if e.pointsNum = 0 ∧ e.isShadow = true then { e with status := 0 } else e
    ({ e with pointsNum := i32 (e.pointsNum + 1) }, 0)

def noticePointClosed (p : P) (e : ShadowEntity P) : ShadowEntity P × Bool :=
  if IsEntityClosed e then (e, false)
  else if isPointInEntity e p then
    let e := { e with points := (dlistDel (Node.point p) e.points).1 }
    let e := { e with pointsNum := i32 (e.pointsNum - 1) }
    let e := if e.nextNoticePoint = some (.point p) then
      { e with nextNoticePoint := (e.points (.point p)).next } else e
    let e := if e.isShadow = true ∧ e.pointsNum = 0 then { e with status := -1 } else e
    (e, decide (IsEntityClosed e))
  else (e, false)

end

/-- `closeRuns` counts the calls of entity_close_func. -/
structure Shared (P : Type) where
  entity : ShadowEntity P
  closeRuns : Nat

inductive EntityPc (P : Type) where
  | idle
  | noticeUserNumInc
  | noticeUserNumDec
  | closeEntity
  | addPointToEntity (p : P)
  | noticePointClosed (p : P)
  | entityCloseFunc

/-- A caller with the increments it has had and not given back, and what its last call
returned. -/
structure User (P : Type) where
  pc : EntityPc P
  held : Nat
  ret : Int

inductive Op (P : Type) where
  | inc
  | dec
  | close
  | addPoint (p : P)
  | pointClosed (p : P)

/-- Where a caller goes on after a section that may have closed the entity. -/
def closing (isClose : Bool) : EntityPc P := if isClose then .entityCloseFunc else .idle

@[simp] theorem closing_ne {isClose : Bool} : closing (P := P) isClose ≠ .noticeUserNumDec := by
  cases isClose <;> simp [closing]

/-- A call is entered, passes its section, or calls entity_close_func. -/
def step [DecidableEq P] (op : Op P) (g : Shared P) (u : User P) : Option (Shared P × User P) :=
  match u.pc with
  | .idle =>
    match op with
    | .inc => some (g, { u with pc := .noticeUserNumInc })
    | .dec => if u.held = 0 then none else some (g, { u with pc := .noticeUserNumDec })
    | .close => some (g, { u with pc := .closeEntity })
    | .addPoint p => some (g, { u with pc := .addPointToEntity p })
    | .pointClosed p => some (g, { u with pc := .noticePointClosed p })
  | .noticeUserNumInc =>
    let (entity, ret) := noticeUserNumInc g.entity
    some ({ g with entity := entity }, ⟨.idle, if ret = 0 then u.held + 1 else u.held, ret⟩)
  | .noticeUserNumDec =>
    let (entity, isClose) := noticeUserNumDec g.entity
    some ({ g with entity := entity }, ⟨closing isClose, u.held - 1, 0⟩)
  | .closeEntity =>
    let (entity, isClose) := closeEntity g.entity
    some ({ g with entity := entity }, { u with pc := closing isClose })
  | .addPointToEntity p =>
    let (entity, ret) := addPointToEntity p g.entity
    some ({ g with entity := entity }, { u with pc := .idle, ret := ret })
  | .noticePointClosed p =>
    let (entity, isClose) := noticePointClosed p g.entity
    some ({ g with entity := entity }, { u with pc := closing isClose })
  | .entityCloseFunc => some ({ g with closeRuns := g.closeRuns + 1 }, { u with pc := .idle })

def protocol [DecidableEq P] : Program (Shared P) (User P) Unit (Op P) where
  start _ g := some (g, ⟨.idle, 0, 0⟩)
  step := step

def users (c : Config (Shared P) (User P)) : Nat := c.total User.held

/-- The caller is to call entity_close_func. -/
def User.closes (u : User P) : Nat :=
  match u.pc with
  | .entityCloseFunc => 1
  | _ => 0

/-- An open entity between calls, with the users that hold it. -/
structure Initial (c : Config (Shared P) (User P)) : Prop where
  opened : ¬ IsEntityClosed c.shared.entity
  fresh : c.shared.closeRuns = 0
  idle : ∀ u ∈ c.calls, u.pc = .idle
  counted : c.shared.entity.totalUserNum = users c
  small : users c < 2 ^ 31

/-- notice_user_num_inc finds the entity open, and room for one more user. -/
def timely (c : Config (Shared P) (User P)) (u : User P) : Bool :=
  match u.pc with
  | .noticeUserNumInc => decide (¬ IsEntityClosed c.shared.entity ∧ users c + 1 < 2 ^ 31)
  | _ => true

/-- What a section does to an entity: a closed one stays as it is, and `isClose` tells that an
open one has been closed. -/
structure Section (e e' : ShadowEntity P) (isClose : Bool) : Prop where
  stays : IsEntityClosed e → e' = e ∧ isClose = false
  tells : ¬ IsEntityClosed e → (isClose = true ↔ IsEntityClosed e')

theorem not_isEntityClosedRef (e : ShadowEntity P) : ¬ IsEntityClosedRef e :=
  fun closed => Nat.not_lt_zero _ closed.1

section
variable {e : ShadowEntity P} {n : Nat}

theorem noticeUserNumInc_eq (counted : e.totalUserNum = n) (small : n + 1 < 2 ^ 31) :
    noticeUserNumInc e = ({ e with totalUserNum := (n + 1 : Nat) }, 0) := by
  have value : i32 (e.totalUserNum + 1) = (n + 1 : Nat) := by
    rw [counted]
    exact i32_eq (by omega) (by omega)
  rw [noticeUserNumInc, if_neg (not_isEntityClosedRef e), value]

theorem noticeUserNumInc_section (opened : ¬ IsEntityClosed e) :
    Section e { e with totalUserNum := (n + 1 : Nat) } false where
  stays closed := absurd closed opened
  tells _ := by
    constructor
    · intro told
      contradiction
    · rintro ⟨_, none⟩
      dsimp only at none
      omega

theorem noticeUserNumDec_eq (counted : e.totalUserNum = (n + 1 : Nat)) (small : n + 1 < 2 ^ 31) :
    noticeUserNumDec e = ({ e with totalUserNum := n },
      decide (IsEntityClosed { e with totalUserNum := n })) := by
  have value : i32 (e.totalUserNum - 1) = n := by
    rw [counted]
    exact (i32_eq (by omega) (by omega)).trans (by omega)
  rw [noticeUserNumDec, if_neg (not_isEntityClosedRef e), value]

theorem noticeUserNumDec_section (counted : e.totalUserNum = (n + 1 : Nat)) :
    Section e { e with totalUserNum := n }
      (decide (IsEntityClosed { e with totalUserNum := n })) where
  stays closed := by
    have none := closed.2
    omega
  tells _ := decide_eq_true_iff

theorem closeEntity_section (e : ShadowEntity P) :
    Section e (closeEntity e).1 (closeEntity e).2 ∧
      (closeEntity e).1.totalUserNum = e.totalUserNum := by
  by_cases closed : IsEntityClosed e
  · rw [closeEntity, if_pos closed]
    exact ⟨⟨fun _ => ⟨rfl, rfl⟩, fun opened => absurd closed opened⟩, rfl⟩
  · rw [closeEntity, if_neg closed]
    exact ⟨⟨fun other => absurd other closed, fun _ => decide_eq_true_iff⟩, rfl⟩

variable [DecidableEq P]

theorem addPointToEntity_closed (closed : IsEntityClosed e) (p : P) :
    addPointToEntity p e = (e, -1) := if_pos closed

theorem addPointToEntity_section (p : P) (e : ShadowEntity P) :
    Section e (addPointToEntity p e).1 false ∧
      (addPointToEntity p e).1.totalUserNum = e.totalUserNum := by
  by_cases closed : IsEntityClosed e
  · rw [addPointToEntity_closed closed]
    exact ⟨⟨fun _ => ⟨rfl, rfl⟩, fun opened => absurd closed opened⟩, rfl⟩
  · have stays : ¬ IsEntityClosed (addPointToEntity p e).1 ∧
        (addPointToEntity p e).1.totalUserNum = e.totalUserNum := by
      rw [addPointToEntity, if_neg closed]
      split
      · exact ⟨closed, rfl⟩
      · dsimp only
        split
        · exact ⟨fun other => Int.lt_irrefl 0 other.1, rfl⟩
        · exact ⟨closed, rfl⟩
    refine ⟨⟨fun other => absurd other closed, fun _ => ?_⟩, stays.2⟩
    constructor
    · intro told
      contradiction
    · intro other
      exact absurd other stays.1

theorem noticePointClosed_section (p : P) (e : ShadowEntity P) :
    Section e (noticePointClosed p e).1 (noticePointClosed p e).2 ∧
      (noticePointClosed p e).1.totalUserNum = e.totalUserNum := by
  by_cases closed : IsEntityClosed e
  · rw [noticePointClosed, if_pos closed]
    exact ⟨⟨fun _ => ⟨rfl, rfl⟩, fun opened => absurd closed opened⟩, rfl⟩
  · rw [noticePointClosed, if_neg closed]
    split
    · refine ⟨⟨fun other => absurd other closed, fun _ => decide_eq_true_iff⟩, ?_⟩
      dsimp only
      split <;> split <;> rfl
    · refine ⟨⟨fun other => absurd other closed, fun _ => ?_⟩, rfl⟩
      constructor
      · intro told
        contradiction
      · intro other
        exact absurd other closed

end

/-- The users of the entity are counted, and the calls of entity_close_func follow its close. -/
structure Life (g : Shared P) (n k : Nat) : Prop where
  counted : g.entity.totalUserNum = n
  small : n < 2 ^ 31
  closes : g.closeRuns + k = if IsEntityClosed g.entity then 1 else 0

section
variable {g g' : Shared P} {n n' k : Nat} {e' : ShadowEntity P} {isClose : Bool} {u' : User P}

theorem Life.pass (life : Life g n k) (passed : Section g.entity e' isClose)
    (counted : e'.totalUserNum = n') (small : n' < 2 ^ 31) (goes : u'.pc = closing isClose) :
    Life { g with entity := e' } n' (u'.closes + k) where
  counted := counted
  small := small
  closes := by
    have closes := life.closes
    have taken : u'.closes = if isClose = true then 1 else 0 := by
      cases isClose <;> simp [User.closes, goes, closing]
    rw [taken]
    by_cases closed : IsEntityClosed g.entity
    · obtain ⟨same, told⟩ := passed.stays closed
      subst same told
      rw [if_pos closed] at closes ⊢
      simp only [Bool.false_eq_true, if_false, Nat.zero_add]
      exact closes
    · have tells := passed.tells closed
      rw [if_neg closed] at closes
      cases isClose with
      | true =>
        rw [if_pos rfl, if_pos (tells.mp rfl)]
        dsimp only
        omega
      | false =>
        rw [if_neg Bool.false_ne_true, if_neg fun other => Bool.false_ne_true (tells.mpr other)]
        dsimp only
        omega

/-- A caller that gives its increment back has one. -/
def User.Ok (u : User P) : Prop := u.pc = .noticeUserNumDec → 0 < u.held

variable [DecidableEq P] {op : Op P} {u : User P}

theorem step_life (ok : u.Ok) (life : Life g (u.held + n) (u.closes + k))
    (met : u.pc = .noticeUserNumInc → ¬ IsEntityClosed g.entity ∧ u.held + n + 1 < 2 ^ 31)
    (acted : step op g u = some (g', u')) :
    Life g' (u'.held + n) (u'.closes + k) ∧ u'.Ok ∧
      (IsEntityClosed g.entity → g'.entity = g.entity) := by
  obtain ⟨pc, held, ret⟩ := u
  have quiet : pc ≠ .entityCloseFunc → Life g (held + n) k := by
    intro other
    simpa [User.closes, other] using life
  cases pc with
  | idle =>
    cases op with
    | dec =>
      simp only [step] at acted
      split at acted
      · contradiction
      next some =>
        cases acted
        exact ⟨life, fun _ => Nat.pos_of_ne_zero some, fun _ => rfl⟩
    | _ =>
      cases acted
      exact ⟨life, by simp [User.Ok], fun _ => rfl⟩
  | noticeUserNumInc =>
    obtain ⟨opened, room⟩ := met rfl
    have counted := (quiet (by simp)).counted
    simp only [step, noticeUserNumInc_eq counted room, if_true] at acted
    cases acted
    have passed := noticeUserNumInc_section (n := held + n) opened
    refine ⟨?_, by simp [User.Ok], fun closed => absurd closed opened⟩
    have counts : held + n + 1 = held + 1 + n := by omega
    exact (quiet (by simp)).pass passed (congrArg Int.ofNat counts) (counts ▸ room) rfl
  | noticeUserNumDec =>
    obtain ⟨counted, small, closes⟩ := quiet (by simp)
    have holds : 0 < held := ok rfl
    have counted' : g.entity.totalUserNum = (held - 1 + n + 1 : Nat) := by
      rw [counted]
      omega
    simp only [step, noticeUserNumDec_eq counted' (by omega)] at acted
    cases acted
    have passed := noticeUserNumDec_section counted'
    refine ⟨?_, ?_, fun closed => (passed.stays closed).1⟩
    · exact Life.pass ⟨counted, small, closes⟩ passed rfl (by dsimp only; omega) rfl
    · intro goes
      exact absurd goes closing_ne
  | closeEntity =>
    obtain ⟨passed, counted⟩ := closeEntity_section g.entity
    cases acted
    refine ⟨?_, ?_, fun closed => (passed.stays closed).1⟩
    · exact (quiet (by simp)).pass passed (counted.trans life.counted) life.small rfl
    · intro goes
      exact absurd goes closing_ne
  | addPointToEntity p =>
    obtain ⟨passed, counted⟩ := addPointToEntity_section p g.entity
    cases acted
    refine ⟨?_, by simp [User.Ok], fun closed => (passed.stays closed).1⟩
    exact (quiet (by simp)).pass passed (counted.trans life.counted) life.small rfl
  | noticePointClosed p =>
    obtain ⟨passed, counted⟩ := noticePointClosed_section p g.entity
    cases acted
    refine ⟨?_, ?_, fun closed => (passed.stays closed).1⟩
    · exact (quiet (by simp)).pass passed (counted.trans life.counted) life.small rfl
    · intro goes
      exact absurd goes closing_ne
  | entityCloseFunc =>
    obtain ⟨counted, small, closes⟩ := life
    cases acted
    refine ⟨⟨counted, small, ?_⟩, by simp [User.Ok], fun _ => rfl⟩
    simp only [User.closes] at closes ⊢
    omega

end

structure Invariant (c : Config (Shared P) (User P)) : Prop where
  calls : ∀ u ∈ c.calls, u.Ok
  life : Life c.shared (users c) (c.total User.closes)

theorem Initial.invariant {c : Config (Shared P) (User P)} (initial : Initial c) : Invariant c := by
  obtain ⟨opened, fresh, idle, counted, small⟩ := initial
  have none : c.total User.closes = 0 := by
    by_contra some
    obtain ⟨u, member, closes⟩ := exists_of_total_pos (Nat.pos_of_ne_zero some)
    simp [User.closes, idle u member] at closes
  refine ⟨fun u member => ?_, counted, small, ?_⟩
  · simp [User.Ok, idle u member]
  · rw [if_neg opened, fresh, none]

variable [DecidableEq P]

theorem start_invariant {g g' : Shared P} {u : User P} {ls : List (User P)} {x : Unit}
    (inv : Invariant ⟨g, ls⟩) (started : protocol.start x g = some (g', u)) :
    Invariant ⟨g', ls ++ [u]⟩ ∧ g'.entity = g.entity := by
  cases started
  refine ⟨⟨forall_start inv.calls (by simp [User.Ok]) fun _ => id, ?_⟩, rfl⟩
  have life := inv.life
  simp only [users, total_start _ g g] at life ⊢
  exact life

theorem step_invariant {op : Op P} {g g' : Shared P} {u u' : User P} {pre post : List (User P)}
    (inv : Invariant ⟨g, pre ++ u :: post⟩) (met : timely ⟨g, pre ++ u :: post⟩ u = true)
    (acted : step op g u = some (g', u')) :
    Invariant ⟨g', pre ++ u' :: post⟩ ∧ (IsEntityClosed g.entity → g'.entity = g.entity) := by
  have life := inv.life
  simp only [users, total_split] at life
  have met : u.pc = .noticeUserNumInc →
      ¬ IsEntityClosed g.entity ∧ u.held + others User.held pre post + 1 < 2 ^ 31 := by
    intro inc
    simpa [timely, inc, users, total_split] using met
  obtain ⟨life', ok, kept⟩ := step_life (inv.calls u (by simp)) life met acted
  refine ⟨⟨forall_split inv.calls ok fun _ _ ok => ok, ?_⟩, kept⟩
  simp only [users, total_split]
  exact life'

abbrev TimelyRun : Config (Shared P) (User P) → Config (Shared P) (User P) → Prop :=
  protocol.ReachesWhere fun c u => timely c u = true

theorem run_invariant {c c' : Config (Shared P) (User P)} (inv : Invariant c)
    (run : TimelyRun c c') : Invariant c' :=
  Program.ReachesWhere.invariant inv (fun inv started => (start_invariant inv started).1)
    (fun inv met acted => (step_invariant inv met acted).1) run

/-- A closed entity stays as it is. -/
theorem run_closed {c c' : Config (Shared P) (User P)} (inv : Invariant c)
    (closed : IsEntityClosed c.shared.entity) (run : TimelyRun c c') :
    c'.shared.entity = c.shared.entity := by
  have both : Invariant c' ∧ c'.shared.entity = c.shared.entity := by
    apply Program.ReachesWhere.invariant ⟨inv, rfl⟩ _ _ run
    · rintro x g g' u ls ⟨inv, same⟩ started
      obtain ⟨inv', kept⟩ := start_invariant inv started
      exact ⟨inv', kept.trans same⟩
    · rintro op g g' u u' pre post ⟨inv, same⟩ met acted
      obtain ⟨inv', kept⟩ := step_invariant inv met acted
      exact ⟨inv', (kept (same ▸ closed)).trans same⟩
  exact both.2

/-- entity_close_func is called once, by the call that closes the entity; the entity then fails
add_point_to_entity and stays as it is. -/
theorem entity_closing {c c' : Config (Shared P) (User P)} (initial : Initial c)
    (run : TimelyRun c c') :
    c'.shared.closeRuns ≤ 1 ∧
      c'.shared.closeRuns + c'.total User.closes =
        (if IsEntityClosed c'.shared.entity then 1 else 0) ∧
      (IsEntityClosed c'.shared.entity →
        (∀ p, addPointToEntity p c'.shared.entity = (c'.shared.entity, -1)) ∧
        ∀ c'', TimelyRun c' c'' → c''.shared.entity = c'.shared.entity) := by
  have inv := run_invariant initial.invariant run
  have closes := inv.life.closes
  refine ⟨?_, closes, fun closed => ⟨addPointToEntity_closed closed, fun c'' rest => ?_⟩⟩
  · split at closes <;> omega
  · exact run_closed inv closed rest

/-- An entity without points or users. -/
def lone : Config (Shared Unit) (User Unit) :=
  ⟨⟨⟨8, 16, 0, 0, false, fun _ => loose, 0, none⟩, 0⟩, []⟩

/-- It is closed while it has a user, and again when the user leaves. -/
theorem entity_closing_used : ∃ c, TimelyRun lone c ∧ c.shared.closeRuns = 1 ∧
    c.shared.closeRuns ≤ 1 := by
  have initial : Initial lone := ⟨by decide, rfl, by simp [lone], rfl, by decide⟩
  have executed : ((protocol.execWhere timely (List.flatten [[.inl (), .inl ()],
      Program.turns 0 2 .inc, Program.turns 1 2 .close, Program.turns 0 3 .dec]) lone).map
        (·.shared.closeRuns)) = some 1 := by with_unfolding_all rfl
  obtain ⟨c, done, runs⟩ := Option.map_eq_some_iff.mp executed
  have run := Program.execWhere_reaches done
  exact ⟨c, run, runs, (entity_closing initial run).1⟩

/-- A closed entity without users takes one in, and is closed again when it leaves. -/
theorem entity_closed_twice : ∃ c, protocol.Reaches lone c ∧ c.shared.closeRuns = 2 := by
  have executed : ((protocol.execWhere (fun _ _ => true) (List.flatten [[.inl ()],
      Program.turns 0 3 .close, Program.turns 0 2 .inc, Program.turns 0 3 .dec]) lone).map
        (·.shared.closeRuns)) = some 2 := by with_unfolding_all rfl
  obtain ⟨c, done, runs⟩ := Option.map_eq_some_iff.mp executed
  exact ⟨c, (Program.execWhere_reaches done).reaches, runs⟩

end MoonInWater.Sync.EntityClose
