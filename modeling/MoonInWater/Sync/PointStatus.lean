import MoonInWater.Common.UseingRef

/-! The close of a linked point: close_point marks its status word and calls
point_close_func; the closer of an unused point or the last user of a closed one calls
_point_close_func, which drops the references to the entity and the stream. -/
namespace MoonInWater.Sync.PointStatus
open CInt Threads UseingRef

/-- Where a call stands. After point_close_func the closer of an unused point has
_point_close_func to call too (`unused`). -/
inductive PointPc where
  | idle
  | ref (pc : RefPc)
  | closePoint
  | closeSwap (tmp : Int)
  | pointCloseFunc (unused : Bool)
  | dropFunc
deriving DecidableEq

/-- linked_point_s as to its close. `closeRuns` and `dropRuns` count the calls of
point_close_func and _point_close_func, `stale` those of the former that found the references
of the point dropped, and `closes` the calls of close_point that have set or seen the mark. -/
structure Point where
  status : Int
  closeRuns : Nat
  dropRuns : Nat
  stale : Nat
  closes : Nat
deriving DecidableEq

structure User where
  pc : PointPc
  held : Nat
deriving DecidableEq

inductive Op where
  | inc
  | dec
  | close
deriving DecidableEq

/-- The value that close_point puts in place of `tmp`. -/
def closeValue (tmp : Int) : Int :=
  if tmp < useingRefUnit then statusClosed else tmp - nibble tmp + statusClosed

/-- One load, swap, subtract or call of a function. -/
def step (op : Op) (g : Point) (u : User) : Option (Point × User) :=
  match u.pc with
  | .idle =>
    match op with
    | .inc => some (g, { u with pc := .ref .inc })
    | .dec => if u.held = 0 then none else some (g, { u with pc := .ref .dec })
    | .close => some (g, { u with pc := .closePoint })
  | .ref pc =>
    match refStep g.status pc with
    | (status, .goto next) => some ({ g with status := status }, { u with pc := .ref next })
    | (status, .ret value) =>
      some ({ g with status := status }, ⟨.idle, (RefNext.ret value).held pc u.held⟩)
    | (status, .closeFun) =>
      some ({ g with status := status }, ⟨.dropFunc, RefNext.closeFun.held pc u.held⟩)
  | .closePoint =>
    if Closed g.status then some ({ g with closes := g.closes + 1 }, { u with pc := .idle })
    else some (g, { u with pc := .closeSwap g.status })
  | .closeSwap tmp =>
    if g.status = tmp then
      some ({ g with status := closeValue tmp, closes := g.closes + 1 },
        { u with pc := .pointCloseFunc (decide (tmp < useingRefUnit)) })
    else some (g, { u with pc := .closePoint })
  | .pointCloseFunc unused =>
    some ({ g with
      closeRuns := g.closeRuns + 1
      stale := g.stale + if 0 < g.dropRuns then 1 else 0 },
      { u with pc := if unused then .dropFunc else .idle })
  | .dropFunc => some ({ g with dropRuns := g.dropRuns + 1 }, { u with pc := .idle })

def protocol : Program Point User Unit Op where
  start _ g := some (g, ⟨.idle, 0⟩)
  step := step

/-- A point whose status is not closed, without users. -/
def initial (status : Int) : Config Point User := ⟨⟨status, 0, 0, 0, 0⟩, []⟩

def users (c : Config Point User) : Nat := c.total User.held

/-- The call is about to call point_close_func. -/
def User.closing (u : User) : Nat :=
  match u.pc with
  | .pointCloseFunc _ => 1
  | _ => 0

/-- The call is to call _point_close_func, at once or after point_close_func. -/
def User.dropping (u : User) : Nat :=
  match u.pc with
  | .pointCloseFunc true | .dropFunc => 1
  | _ => 0

/-- The call is to call point_close_func, the last user _point_close_func. -/
def User.waiting (u : User) : Nat :=
  match u.pc with
  | .pointCloseFunc false => 1
  | _ => 0

/-- No user gives the last reference of a closed point back before point_close_func has been
called, and the count of users has room for one more. -/
def ordered (c : Config Point User) (u : User) : Bool :=
  users c + 1 < 2 ^ 27 ∧
    (u.pc = .ref .dec → c.shared.status = statusClosed + useingRefUnit →
      c.total User.closing = 0)

def User.Ok (u : User) : Prop :=
  match u.pc with
  | .ref pc => pc.Ok u.held ∧ (pc = .inc ∨ pc = .dec ∨ ∃ tmp, pc = .incSwap tmp)
  | .closeSwap tmp => ¬ Closed tmp
  | _ => True

/-- The word of a point with `n` users, where `k` calls of point_close_func and `m` of
_point_close_func are to come; `w` of the former leave the latter to a user. -/
structure Life (g : Point) (n k m w : Nat) : Prop where
  counts : Counts g.status n
  closes : g.closeRuns + k = if Closed g.status then 1 else 0
  drops : g.dropRuns + m = if Closed g.status ∧ n = 0 then 1 else 0
  waits : 0 < w → 0 < n
  stale : g.stale = 0
  done : 0 < g.closes → Closed g.status

section
variable {g g' : Point} {u' : User} {op : Op} {held n k m w : Nat}

/-- A step that leaves the word alone. -/
theorem Life.same {g g' : Point} (life : Life g n k m w) (status : g'.status = g.status)
    (closeRuns : g'.closeRuns = g.closeRuns) (dropRuns : g'.dropRuns = g.dropRuns)
    (stale : g'.stale = g.stale) (closes : 0 < g'.closes → Closed g.status) : Life g' n k m w where
  counts := by rw [status]; exact life.counts
  closes := by rw [status, closeRuns]; exact life.closes
  drops := by rw [status, dropRuns]; exact life.drops
  waits := life.waits
  stale := stale.trans life.stale
  done := by rw [status]; exact closes

theorem inc_life {pc : RefPc} (inc : pc = .inc ∨ ∃ tmp, pc = .incSwap tmp) (ok : pc.Ok held)
    (life : Life g (held + n) k m w) (room : held + n + 1 < 2 ^ 27)
    (acted : step op g ⟨.ref pc, held⟩ = some (g', u')) :
    Life g' (u'.held + n) (u'.closing + k) (u'.dropping + m) (u'.waiting + w) ∧ u'.Ok := by
  obtain ⟨counts, closes, drops, waits, stale, done⟩ := life
  rcases inc with rfl | ⟨tmp, rfl⟩
  · by_cases closed : Closed g.status
    · simp only [step, refStep, if_pos closed] at acted
      cases acted
      simp only [User.closing, User.dropping, User.waiting, Nat.zero_add, RefNext.held]
      exact ⟨⟨counts, closes, drops, waits, stale, done⟩, trivial⟩
    · simp only [step, refStep, if_neg closed] at acted
      cases acted
      simp only [User.closing, User.dropping, User.waiting, Nat.zero_add]
      exact ⟨⟨counts, closes, drops, waits, stale, done⟩, closed, .inr (.inr ⟨_, rfl⟩)⟩
  · by_cases hit : g.status = tmp
    · subst hit
      simp only [step, refStep, if_true] at acted
      cases acted
      have bounds := counts.bounds
      have value : i32 (g.status + useingRefUnit) = g.status + 16 :=
        i32_eq (by simp only [useingRefUnit]; omega) (by simp only [useingRefUnit]; omega)
      have opened : ¬ Closed g.status := ok
      have stays : ¬ Closed (g.status + 16) := mt (closed_shift _).mp opened
      simp only [User.closing, User.dropping, User.waiting, Nat.zero_add, RefNext.held, value]
      rw [if_neg opened] at closes
      rw [if_neg fun both => opened both.1] at drops
      refine ⟨⟨?_, ?_, ?_, fun _ => by omega, stale, ?_⟩, trivial⟩
      all_goals dsimp only
      · obtain ⟨count, small⟩ := counts
        exact ⟨by omega, by omega⟩
      · rw [if_neg stays, closes]
      · rw [if_neg fun both => stays both.1, drops]
      · exact fun some => absurd (done some) opened
    · simp only [step, refStep, if_neg hit] at acted
      cases acted
      simp only [User.closing, User.dropping, User.waiting, Nat.zero_add]
      exact ⟨⟨counts, closes, drops, waits, stale, done⟩, trivial, .inl rfl⟩

theorem dec_life (holds : 0 < held) (part : w ≤ k) (life : Life g (held + n) k m w)
    (last : g.status = statusClosed + useingRefUnit → k = 0)
    (acted : step op g ⟨.ref .dec, held⟩ = some (g', u')) :
    Life g' (u'.held + n) (u'.closing + k) (u'.dropping + m) (u'.waiting + w) ∧ u'.Ok := by
  obtain ⟨counts, closes, drops, waits, stale, done⟩ := life
  have bounds := counts.bounds
  have value : i32 (g.status - useingRefUnit) = g.status - 16 :=
    i32_eq (by simp only [useingRefUnit]; omega) (by simp only [useingRefUnit]; omega)
  have kept : Closed (g.status - 16) ↔ Closed g.status := by
    rw [← closed_shift (g.status - 16), Int.sub_add_cancel]
  rw [if_neg (by omega)] at drops
  have counts' : Counts (g.status - 16) (held - 1 + n) := by
    obtain ⟨count, small⟩ := counts
    exact ⟨by omega, by omega⟩
  by_cases run : g.status - 16 = 15
  · have closed : Closed (g.status - 16) := by rw [run]; rfl
    have none : k = 0 := last (by simp only [statusClosed, useingRefUnit]; omega)
    simp only [step, refStep, value, run, statusClosed, Int.reduceLT, if_false, if_true] at acted
    cases acted
    simp only [User.closing, User.dropping, User.waiting, Nat.zero_add, RefNext.held]
    rw [run] at counts' closed
    refine ⟨⟨counts', ?_, ?_, fun some => by omega, stale, fun _ => closed⟩, trivial⟩
    all_goals dsimp only
    · rw [if_pos closed, closes, if_pos (kept.mp (run ▸ closed))]
    · have unused : held - 1 + n = 0 := by
        have count := counts'.1
        omega
      rw [if_pos ⟨closed, unused⟩]
      omega
  · have returns : step op g ⟨.ref .dec, held⟩ =
        some ({ g with status := g.status - 16 }, ⟨.idle, held - 1⟩) := by
      have nonneg : ¬ g.status - 16 < 0 := by omega
      simp only [step, refStep, value, if_neg nonneg, statusClosed, if_neg run, RefNext.held]
    rw [returns] at acted
    cases acted
    simp only [User.closing, User.dropping, User.waiting, Nat.zero_add]
    have used : ¬ (Closed (g.status - 16) ∧ held - 1 + n = 0) := by
      rintro ⟨closed, none⟩
      simp only [Closed, nibble, statusClosed] at closed
      omega
    refine ⟨⟨counts', ?_, ?_, fun some => ?_, stale, fun some => kept.mpr (done some)⟩, trivial⟩
    · simp only [kept]
      exact closes
    · rw [if_neg used]
      exact drops
    · by_contra none
      have closed : Closed g.status := by
        by_contra opened
        rw [if_neg opened] at closes
        omega
      exact used ⟨kept.mpr closed, by omega⟩

theorem closeSwap_life {tmp : Int} (opened : ¬ Closed tmp) (part : w ≤ k)
    (life : Life g (held + n) k m w)
    (acted : step op g ⟨.closeSwap tmp, held⟩ = some (g', u')) :
    Life g' (u'.held + n) (u'.closing + k) (u'.dropping + m) (u'.waiting + w) ∧ u'.Ok := by
  obtain ⟨counts, closes, drops, waits, stale, done⟩ := life
  by_cases hit : g.status = tmp
  · subst hit
    simp only [step, if_true] at acted
    cases acted
    have bounds := counts.bounds
    rw [if_neg opened] at closes
    rw [if_neg fun both => opened both.1] at drops
    have marked : Closed (closeValue g.status) ∧ closeValue g.status / 16 = g.status / 16 := by
      by_cases small : g.status < 16
      · have value : closeValue g.status = 15 := if_pos small
        simp only [value, Closed, nibble, statusClosed]
        omega
      · have value : closeValue g.status = g.status - g.status % 16 + 15 := if_neg small
        simp only [value, Closed, nibble, statusClosed]
        omega
    have counts' : Counts (closeValue g.status) (held + n) := by
      obtain ⟨count, small⟩ := counts
      exact ⟨marked.2.trans count, small⟩
    by_cases unused : g.status < useingRefUnit
    · simp only [useingRefUnit] at unused
      simp only [User.closing, User.dropping, User.waiting, useingRefUnit, unused, decide_true,
        Nat.zero_add]
      refine ⟨⟨counts', ?_, ?_, fun some => by omega, stale, fun _ => marked.1⟩, trivial⟩
      all_goals dsimp only
      · rw [if_pos marked.1]
        omega
      · rw [if_pos ⟨marked.1, by omega⟩]
        omega
    · simp only [useingRefUnit] at unused
      simp only [User.closing, User.dropping, User.waiting, useingRefUnit, unused, decide_false,
        Nat.zero_add]
      refine ⟨⟨counts', ?_, ?_, fun some => by omega, stale, fun _ => marked.1⟩, trivial⟩
      all_goals dsimp only
      · rw [if_pos marked.1]
        omega
      · rw [if_neg (by omega)]
        omega
  · simp only [step, if_neg hit] at acted
    cases acted
    simp only [User.closing, User.dropping, User.waiting, Nat.zero_add]
    exact ⟨⟨counts, closes, drops, waits, stale, done⟩, trivial⟩

/-- A step with what its call takes on. -/
theorem step_life {u : User} (ok : u.Ok) (part : w ≤ k)
    (life : Life g (u.held + n) (u.closing + k) (u.dropping + m) (u.waiting + w))
    (room : u.held + n + 1 < 2 ^ 27)
    (last : u.pc = .ref .dec → g.status = statusClosed + useingRefUnit → u.closing + k = 0)
    (acted : step op g u = some (g', u')) :
    Life g' (u'.held + n) (u'.closing + k) (u'.dropping + m) (u'.waiting + w) ∧ u'.Ok := by
  obtain ⟨pc, held⟩ := u
  cases pc with
  | idle =>
    cases op with
    | inc =>
      cases acted
      exact ⟨life, trivial, .inl rfl⟩
    | dec =>
      simp only [step] at acted
      split at acted
      · contradiction
      next holds =>
        cases acted
        exact ⟨life, Nat.pos_of_ne_zero holds, .inr (.inl rfl)⟩
    | close =>
      cases acted
      exact ⟨life, trivial⟩
  | ref pc =>
    simp only [User.closing, User.dropping, User.waiting, Nat.zero_add] at life last
    obtain ⟨pcOk, inc | rfl | inc⟩ := ok
    · exact inc_life (.inl inc) pcOk life room acted
    · exact dec_life pcOk part life (last rfl) acted
    · exact inc_life (.inr inc) pcOk life room acted
  | closePoint =>
    by_cases closed : Closed g.status
    · simp only [step, if_pos closed] at acted
      cases acted
      exact ⟨life.same rfl rfl rfl rfl fun _ => closed, trivial⟩
    · simp only [step, if_neg closed] at acted
      cases acted
      exact ⟨life, closed⟩
  | closeSwap tmp =>
    simp only [User.closing, User.dropping, User.waiting, Nat.zero_add] at life
    exact closeSwap_life ok part life acted
  | pointCloseFunc unused =>
    obtain ⟨counts, closes, drops, waits, stale, done⟩ := life
    cases acted
    have first : g.dropRuns = 0 := by
      cases unused with
      | true =>
        simp only [User.dropping] at drops
        split at drops <;> omega
      | false =>
        simp only [User.waiting] at waits
        have used : 0 < held + n := waits (by omega)
        rw [if_neg fun both => Nat.ne_of_gt used both.2] at drops
        omega
    refine ⟨⟨counts, ?_, ?_, fun some => ?_, ?_, done⟩, ?_⟩
    · cases unused with
      | true =>
        simp only [User.closing, if_true] at closes ⊢
        omega
      | false =>
        simp only [User.closing, Bool.false_eq_true, if_false] at closes ⊢
        omega
    · cases unused with
      | true => exact drops
      | false => exact drops
    · cases unused with
      | true => exact waits some
      | false =>
        simp only [User.waiting] at waits
        exact waits (by omega)
    · simp only [first, Nat.lt_irrefl, if_false]
      exact stale
    · cases unused with
      | true => exact trivial
      | false => exact trivial
  | dropFunc =>
    obtain ⟨counts, closes, drops, waits, stale, done⟩ := life
    cases acted
    refine ⟨⟨counts, closes, ?_, waits, stale, done⟩, trivial⟩
    simp only [User.dropping] at drops ⊢
    omega

end

/-- The calls and the point of a run. -/
structure Invariant (c : Config Point User) : Prop where
  calls : ∀ u ∈ c.calls, u.Ok
  life : Life c.shared (users c) (c.total User.closing) (c.total User.dropping) (c.total User.waiting)

theorem initial_invariant {status : Int} (opened : ¬ Closed status) (low : 0 ≤ status)
    (unused : status < useingRefUnit) : Invariant (initial status) := by
  have counts : Counts status 0 := by
    simp only [useingRefUnit] at unused
    exact ⟨by omega, Nat.two_pow_pos 27⟩
  refine ⟨fun _ member => absurd member List.not_mem_nil, counts, ?_, ?_, ?_, rfl, ?_⟩
  · exact (if_neg opened).symm
  · exact (if_neg fun both => opened both.1).symm
  · exact fun some => absurd some (Nat.lt_irrefl 0)
  · exact fun some => absurd some (Nat.lt_irrefl 0)

theorem start_invariant {g g' : Point} {u : User} {ls : List User} {e : Unit}
    (inv : Invariant ⟨g, ls⟩) (started : protocol.start e g = some (g', u)) :
    Invariant ⟨g', ls ++ [u]⟩ := by
  cases started
  refine ⟨forall_start inv.calls trivial fun _ => id, ?_⟩
  have life := inv.life
  simp only [users, total_start _ g g] at life ⊢
  exact life

theorem step_invariant {op : Op} {g g' : Point} {u u' : User} {pre post : List User}
    (inv : Invariant ⟨g, pre ++ u :: post⟩) (met : ordered ⟨g, pre ++ u :: post⟩ u = true)
    (acted : step op g u = some (g', u')) : Invariant ⟨g', pre ++ u' :: post⟩ := by
  have life := inv.life
  obtain ⟨room, last⟩ := of_decide_eq_true met
  simp only [users, total_split] at life room last
  have part : others User.waiting pre post ≤ others User.closing pre post := by
    apply others_mono
    intro u
    cases pc : u.pc with
    | pointCloseFunc unused => cases unused <;> simp [User.waiting, User.closing, pc]
    | _ => simp [User.waiting, User.closing, pc]
  obtain ⟨life', ok⟩ := step_life (inv.calls u (by simp)) part life room last acted
  refine ⟨forall_split inv.calls ok fun _ _ ok => ok, ?_⟩
  simp only [users, total_split]
  exact life'

theorem runs_invariant {status : Int} {c : Config Point User} (opened : ¬ Closed status)
    (low : 0 ≤ status) (unused : status < useingRefUnit)
    (run : protocol.ReachesWhere (fun c u => ordered c u = true) (initial status) c) : Invariant c :=
  Program.ReachesWhere.invariant (initial_invariant opened low unused)
    (fun inv started => start_invariant inv started)
    (fun inv met acted => step_invariant inv met acted) run

/-- Both functions are called once, in time, and point_close_func while the point has its
references. -/
theorem point_close {status : Int} {c : Config Point User} (opened : ¬ Closed status)
    (low : 0 ≤ status) (unused : status < useingRefUnit)
    (run : protocol.ReachesWhere (fun c u => ordered c u = true) (initial status) c) :
    c.shared.closeRuns ≤ 1 ∧ c.shared.dropRuns ≤ 1 ∧ c.shared.stale = 0 ∧
      (0 < c.shared.closeRuns → Closed c.shared.status) ∧
      (0 < c.shared.dropRuns → Closed c.shared.status ∧ users c = 0) ∧
      ((∀ u ∈ c.calls, u.pc = .idle) → 0 < c.shared.closes → c.shared.closeRuns = 1 ∧
        (users c = 0 → c.shared.dropRuns = 1)) := by
  obtain ⟨_, counts, closes, drops, _, stale, done⟩ := runs_invariant opened low unused run
  refine ⟨?_, ?_, stale, fun some => ?_, fun some => ?_, fun idle some => ?_⟩
  · split at closes <;> omega
  · split at drops <;> omega
  · by_contra opened
    rw [if_neg opened] at closes
    omega
  · by_contra other
    rw [if_neg other] at drops
    omega
  · have zero : ∀ w : User → Nat, (∀ u : User, u.pc = .idle → w u = 0) → c.total w = 0 := by
      intro w none
      by_contra some
      obtain ⟨u, member, positive⟩ := exists_of_total_pos (Nat.pos_of_ne_zero some)
      have none := none u (idle u member)
      omega
    have noClose : c.total User.closing = 0 := zero _ fun u idle => by simp [User.closing, idle]
    have noDrop : c.total User.dropping = 0 := zero _ fun u idle => by simp [User.dropping, idle]
    have closed := done some
    rw [if_pos closed] at closes
    refine ⟨by omega, fun none => ?_⟩
    rw [if_pos ⟨closed, none⟩] at drops
    omega

/-- A used point is closed, and its user leaves after point_close_func. -/
theorem point_close_used : ∃ c : Config Point User,
    protocol.ReachesWhere (fun c u => ordered c u = true) (initial 0) c ∧
      c.shared = ⟨15, 1, 1, 0, 1⟩ ∧ c.shared.closeRuns ≤ 1 ∧ c.shared.stale = 0 := by
  have executed : protocol.execWhere ordered
      (List.flatten [[.inl (), .inl ()], Program.turns 0 3 .inc, Program.turns 1 4 .close,
        Program.turns 0 3 .dec]) (initial 0) =
      some ⟨⟨15, 1, 1, 0, 1⟩, [⟨.idle, 0⟩, ⟨.idle, 0⟩]⟩ := by with_unfolding_all rfl
  have run := Program.execWhere_reaches executed
  have holds := point_close (by decide) (by decide) (by decide) run
  exact ⟨_, run, rfl, holds.1, holds.2.2.1⟩

/-- The last user leaves between the swap of close_point and its call of point_close_func. -/
theorem point_close_late : ∃ c : Config Point User, protocol.Reaches (initial 0) c ∧
    c.shared = ⟨15, 1, 1, 1, 1⟩ := by
  have executed : protocol.exec (fun _ => True)
      (List.flatten [[.inl (), .inl ()], Program.turns 0 3 .inc, Program.turns 1 3 .close,
        Program.turns 0 3 .dec, Program.turns 1 1 .close]) (initial 0) =
      some ⟨⟨15, 1, 1, 1, 1⟩, [⟨.idle, 0⟩, ⟨.idle, 0⟩]⟩ := by with_unfolding_all rfl
  exact ⟨_, (Program.exec_reaches executed).reaches, rfl⟩

end MoonInWater.Sync.PointStatus
