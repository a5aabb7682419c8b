import MoonInWater.Session.StreamClose

/-! The references that the close of a stream borrows: what is taken on a pipe in the section has to
be dropped by the same call, on the same end of the pipe. -/
namespace MoonInWater.Session.StreamClose

/-- What a reference is taken on: the stream's end of a pipe, the other end, or what the other end
belongs to. -/
inductive Object (n : Nat) where
  | own (r : Resource n)
  | other (r : Resource n)
  | point (r : Resource n)
deriving DecidableEq

inductive RefOp (n : Nat) where
  | inc (o : Object n)
  | dec (o : Object n)
  -- SESSION_FREE_PIPE, or stream_rsblock_free of a block
  | free (r : Resource n)
deriving DecidableEq

variable {n : Nat}

/-- CALL_PIPE_POINT_FUNC; `reached` is the answer of get_other_point_ref, and `func` what the
function does to the references of what the other end belongs to. -/
def callPipePointFunc (reached : Bool) (r : Resource n) (func : List (RefOp n)) : List (RefOp n) :=
  if reached then
    [.inc (.point r), .inc (.other r)] ++ func ++ [.dec (.point r), .dec (.other r)]
  else []

/-- The statuses in which a close takes over the pipes. -/
def Sends (status : Status) : Prop :=
  status = .synRecv ∨ status = .synSend ∨ status = .synreplyRs

instance (status : Status) : Decidable (Sends status) :=
  inferInstanceAs (Decidable (_ ∨ _ ∨ _))

/-- clear_bits of stream_remote_close. -/
def clearBits (g : Stream n) : BitVec 32 :=
  if g.recvTotalLen = 0 then g.shutFlags &&& canSend ||| g.shutFlags &&& canRecv
  else g.shutFlags &&& canSend

/-- The pipes on which the section of a call takes a reference. -/
def borrows (g : Stream n) : Entry → List (Resource n)
  | .localClose => if Sends g.status then timers.map .timer ++ [.op (Fin.last 2)] else []
  | .remoteClose =>
    if Sends g.status then
      (if clearBits g ≠ 0 then [.control] else []) ++ timers.map .timer
    else []

/-- The references that a job of a close takes and drops, one after the other. -/
def refOps (reached : Bool) (g : Stream n) : Job n → List (RefOp n)
  | .localClose => (borrows g .localClose).map fun r => .inc (.own r)
  | .remoteClose => (borrows g .remoteClose).map fun r => .inc (.own r)
  | .sendRst _ => callPipePointFunc reached (.timer rstTimer) []
  | .recvEvent | .sendEvent => callPipePointFunc reached .control []
  | .stop i => callPipePointFunc reached (.timer i) []
  | .refDec r => [.dec (.own r)]
  | .pointRefDec r => callPipePointFunc reached r [.dec (.point r)]
  | .free r => [.free r]
  | .closeFunc => []
  | .freeField r => if g.has r then [.free r] else []

/-- A run of what a call has left to do, which finds the stream as `g`. Before each later job the
stream may have become any other, as other closes go on. -/
inductive Runs : Stream n → List (Job n) → List (RefOp n) → Prop where
  | done : Runs g [] []
  | job (reached fails : Bool) (g'' : Stream n) (acted : act fails job g = some (g', jobs))
      (later : Runs g'' (jobs ++ rest) ops) : Runs g (job :: rest) (refOps reached g job ++ ops)

def takeOver : Entry → Stream n → Option (Stream n × List (Job n))
  | .localClose => streamLocalClose
  | .remoteClose => streamRemoteClose

/-- The section of a call takes over the pointer of a pipe, or the whole stream. -/
def TakesPointer (entry : Entry) (g : Stream n) (r : Resource n) : Prop :=
  ∃ g' jobs, takeOver entry g = some (g', jobs) ∧
    (g.has r ∧ ¬ g'.has r ∨ g.status ≠ .closed ∧ g'.status = .closed)

/-- What is taken on the own end of a pipe is taken once and dropped once, nothing else is dropped
but what was reached there, and nothing is freed but what was taken over. -/
structure Balanced (takes : Resource n → Prop) (ops : List (RefOp n)) : Prop where
  once : ∀ r, ops.count (.inc (.own r)) ≤ 1
  own : ∀ r, ops.count (.dec (.own r)) = ops.count (.inc (.own r))
  point : ∀ r, ops.count (.dec (.point r)) = ops.count (.inc (.point r))
  other : ∀ r, ops.count (.dec (.other r)) = ops.count (.inc (.other r))
  frees : ∀ r, .free r ∈ ops → takes r

/-- A job that takes no references and drops none of what the other ends belong to. -/
def Job.mild : Job n → Bool
  | .localClose | .remoteClose | .sendRst _ | .pointRefDec _ => false
  | _ => true

section
variable {g g' : Stream n} {jobs : List (Job n)} {job : Job n} {ops : List (RefOp n)}
variable {fails reached : Bool} {r : Resource n}

@[simp] theorem callPipePointFunc_inc_own (func : List (RefOp n)) (s : Resource n) :
    (callPipePointFunc reached s func).count (.inc (.own r)) =
      if reached then func.count (.inc (.own r)) else 0 := by
  cases reached <;> simp [callPipePointFunc]

@[simp] theorem callPipePointFunc_dec_own (func : List (RefOp n)) (s : Resource n) :
    (callPipePointFunc reached s func).count (.dec (.own r)) =
      if reached then func.count (.dec (.own r)) else 0 := by
  cases reached <;> simp [callPipePointFunc]

/-- The macro gives back what it has reached. -/
theorem callPipePointFunc_reached (s : Resource n) :
    (callPipePointFunc reached s []).count (.dec (.point r)) =
        (callPipePointFunc reached s []).count (.inc (.point r)) ∧
      (callPipePointFunc reached s []).count (.dec (.other r)) =
        (callPipePointFunc reached s []).count (.inc (.other r)) := by
  cases reached with
  | false => exact ⟨rfl, rfl⟩
  | true => constructor <;> simp [callPipePointFunc, List.count, List.countP_cons]

@[simp] theorem frees_refDec (g : Stream n) (rs : List (Resource n)) :
    (frees g rs).count (.refDec r) = 0 := by
  apply List.count_eq_zero_of_not_mem
  simp [frees]

/-- The jobs that a remote close leaves where it takes over the pipes. -/
theorem streamRemoteClose_sends (sends : Sends g.status)
    (acted : streamRemoteClose g = some (g', jobs)) :
    jobs = (if clearBits g &&& canRecv ≠ 0 then [.recvEvent] else []) ++
      (if clearBits g &&& canSend ≠ 0 then [.sendEvent] else []) ++
      (if clearBits g ≠ 0 then [.refDec .control] else []) ++ frees g (hub .send) ++
      timers.flatMap (fun i => [.stop i, .refDec (.timer i)]) ++ frees g remoteOps ∧
    g'.refs = held (timers.map .timer)
      (if clearBits g ≠ 0 then held [.control] g.refs else g.refs) ∧
    g'.pointRefs = g.pointRefs := by
  unfold streamRemoteClose at acted
  unfold clearBits
  rcases sends with status | status | status <;> rw [status] at acted <;>
    by_cases empty : g.recvTotalLen = 0
  all_goals
    simp only [empty, if_true, if_false] at acted ⊢
    split at acted
    · cases acted
      exact ⟨rfl, rfl, rfl⟩
    · contradiction

theorem streamRemoteClose_quiet (quiet : ¬ Sends g.status)
    (acted : streamRemoteClose g = some (g', jobs)) :
    (jobs = [.closeFunc] ∨ jobs = []) ∧ g'.refs = g.refs ∧ g'.pointRefs = g.pointRefs := by
  unfold streamRemoteClose at acted
  split at acted
  case h_1 | h_2 | h_3 =>
    rename_i status
    exact absurd (by simp [Sends, status]) quiet
  case h_4 | h_5 =>
    cases acted
    exact ⟨.inl rfl, rfl, rfl⟩
  case h_6 | h_7 | h_8 =>
    cases acted
    exact ⟨.inr rfl, rfl, rfl⟩

theorem streamLocalClose_sends (sends : Sends g.status)
    (acted : streamLocalClose g = some (g', jobs)) :
    (∃ id, jobs = .sendRst id :: (frees g localPipes ++
      timers.flatMap (fun i =>
        (if i ≠ rstTimer then [.stop i] else []) ++ [.pointRefDec (.timer i)]) ++
      frees g localOps ++ [.refDec (.op 2)])) ∧
    g'.refs = held (timers.map .timer) (held [.op 2] g.refs) ∧ g'.pointRefs = g.pointRefs := by
  unfold streamLocalClose at acted
  rcases sends with status | status | status <;> rw [status] at acted
  all_goals
    dsimp only at acted
    split at acted
    · cases acted
      exact ⟨⟨_, rfl⟩, rfl, rfl⟩
    · contradiction

theorem streamLocalClose_quiet (quiet : ¬ Sends g.status)
    (acted : streamLocalClose g = some (g', jobs)) :
    (jobs = [.closeFunc] ∨ jobs = []) ∧ g'.refs = g.refs ∧ g'.pointRefs = g.pointRefs := by
  unfold streamLocalClose at acted
  split at acted
  case h_1 | h_2 | h_3 =>
    rename_i status
    exact absurd (by simp [Sends, status]) quiet
  case h_4 | h_5 | h_6 =>
    cases acted
    exact ⟨.inl rfl, rfl, rfl⟩
  case h_7 | h_8 =>
    cases acted
    exact ⟨.inr rfl, rfl, rfl⟩

theorem frees_mild (g : Stream n) (rs : List (Resource n)) : ∀ job ∈ frees g rs, job.mild := by
  intro job member
  obtain ⟨r, _, rfl⟩ := List.mem_map.mp member
  rfl

theorem borrows_nodup (g : Stream n) (entry : Entry) : (borrows g entry).Nodup := by
  cases entry with
  | localClose =>
    rw [borrows]
    split <;> simp [timers]
  | remoteClose =>
    rw [borrows]
    split
    · split <;> simp [timers]
    · exact List.nodup_nil

@[simp] theorem borrows_inc (rs : List (Resource n)) :
    (rs.map fun r => RefOp.inc (.own r)).count (.inc (.own r)) = rs.count r := by
  induction rs with
  | nil => rfl
  | cons s rs ih => simp [List.count_cons, ih]

theorem borrows_other {op : RefOp n} (other : ∀ r, op ≠ .inc (.own r)) (rs : List (Resource n)) :
    (rs.map fun r => RefOp.inc (.own r)).count op = 0 := by
  apply List.count_eq_zero_of_not_mem
  intro member
  obtain ⟨r, _, same⟩ := List.mem_map.mp member
  exact other r same.symm

/-- What a remote close borrows it leaves to be dropped. -/
theorem remoteClose_borrows (acted : streamRemoteClose g = some (g', jobs)) :
    jobs.count (.refDec r) = (borrows g .remoteClose).count r ∧ ∀ job ∈ jobs, job.mild := by
  by_cases sends : Sends g.status
  · obtain ⟨rfl, _⟩ := streamRemoteClose_sends sends acted
    rw [borrows, if_pos sends]
    constructor
    · simp only [List.count_append, frees_refDec, timers]
      split <;> split <;> split <;> simp [List.count_cons]
    · simp only [List.forall_mem_append, timers]
      have ops := frees_mild g remoteOps
      have blocks := frees_mild g (hub .send)
      split <;> split <;> split <;> simp [Job.mild] <;> exact ⟨blocks, ops⟩
  · obtain ⟨left, _⟩ := streamRemoteClose_quiet sends acted
    rw [borrows, if_neg sends]
    rcases left with rfl | rfl <;> simp [Job.mild]

/-- Every job but a local close drops on the own ends what it takes there and what it was to
drop. -/
theorem act_own (reached : Bool) (r : Resource n) (acted : act fails job g = some (g', jobs))
    (remote : job ≠ .localClose) :
    (refOps reached g job).count (.dec (.own r)) + jobs.count (.refDec r) =
      (refOps reached g job).count (.inc (.own r)) + [job].count (.refDec r) ∧
      .localClose ∉ jobs := by
  cases job with
  | localClose => exact absurd rfl remote
  | remoteClose =>
    obtain ⟨left, mild⟩ := remoteClose_borrows (r := r) acted
    refine ⟨?_, fun member => Bool.noConfusion (mild _ member)⟩
    rw [refOps, borrows_inc, borrows_other (by simp), left]
    simp
  | sendRst id =>
    cases acted
    cases fails <;> simp [refOps]
  | closeFunc =>
    cases acted
    simp [refOps, List.count_eq_zero]
  | freeField s =>
    cases acted
    cases has : g.has s <;> simp [refOps, has]
  | refDec s =>
    cases acted
    simp [refOps, List.count_cons]
  | _ =>
    cases acted
    simp [refOps]

theorem Runs.own (run : Runs g jobs ops) (remote : .localClose ∉ jobs) :
    ops.count (.dec (.own r)) = ops.count (.inc (.own r)) + jobs.count (.refDec r) := by
  induction run with
  | done => rfl
  | job reached fails g'' acted later ih =>
    rename_i job g g' jobs rest ops
    obtain ⟨first, others⟩ : .localClose ≠ job ∧ .localClose ∉ rest := by simpa using remote
    obtain ⟨step, fresh⟩ := act_own reached r acted (Ne.symm first)
    have rest_own := ih (by simp [fresh, others])
    rw [List.count_append] at rest_own
    rw [List.count_append, List.count_append, rest_own, ← List.singleton_append,
      List.count_append]
    omega

/-- Jobs that take nothing on the own ends, and give back what they reach at the others. -/
structure Mild (jobs : List (Job n)) (ops : List (RefOp n)) : Prop where
  own : ∀ r, ops.count (.inc (.own r)) = 0
  point : ∀ r, ops.count (.dec (.point r)) = ops.count (.inc (.point r))
  other : ∀ r, ops.count (.dec (.other r)) = ops.count (.inc (.other r))
  frees : ∀ r, .free r ∈ ops → .free r ∈ jobs ∨ .freeField r ∈ jobs ∨ .closeFunc ∈ jobs

theorem callPipePointFunc_mild (s : Resource n) : Mild [job] (callPipePointFunc reached s []) where
  own r := by simp
  point r := (callPipePointFunc_reached s).1
  other r := (callPipePointFunc_reached s).2
  frees r member := by cases reached <;> simp [callPipePointFunc] at member

theorem refOps_mild (mild : job.mild) : Mild [job] (refOps reached g job) := by
  cases job with
  | recvEvent | sendEvent | stop i => exact callPipePointFunc_mild _
  | freeField s =>
    cases has : g.has s <;> constructor <;> simp [refOps, has]
  | localClose | remoteClose | sendRst i | pointRefDec s => contradiction
  | _ => constructor <;> simp [refOps]

theorem act_mild (acted : act fails job g = some (g', jobs)) (mild : job.mild) :
    (∀ later ∈ jobs, later.mild) ∧ ∀ r, .free r ∉ jobs ∧ .closeFunc ∉ jobs ∧
      (.freeField r ∈ jobs → job = .closeFunc) := by
  cases job with
  | localClose | remoteClose | sendRst i | pointRefDec s => contradiction
  | closeFunc =>
    cases acted
    simp [Job.mild]
  | _ =>
    cases acted
    simp

theorem Runs.mild (run : Runs g jobs ops) (mild : ∀ job ∈ jobs, job.mild) : Mild jobs ops := by
  induction run with
  | done => constructor <;> simp
  | job reached fails g'' acted later ih =>
    rename_i job g g' jobs rest ops
    obtain ⟨first, others⟩ := List.forall_mem_cons.mp mild
    obtain ⟨fresh, leaves⟩ := act_mild acted first
    have step : Mild [job] (refOps reached g job) := refOps_mild first
    have after := ih (List.forall_mem_append.mpr ⟨fresh, others⟩)
    refine ⟨fun r => ?_, fun r => ?_, fun r => ?_, fun r member => ?_⟩
    · rw [List.count_append, step.own, after.own]
    · rw [List.count_append, List.count_append, step.point, after.point]
    · rw [List.count_append, List.count_append, step.other, after.other]
    · obtain ⟨noFree, noClose, fields⟩ := leaves r
      rcases List.mem_append.mp member with now | then'
      · rcases step.frees r now with one | one | one <;> rw [List.mem_singleton] at one <;>
          subst one <;> simp
      · rcases after.frees r then' with one | one | one <;>
          rcases List.mem_append.mp one with early | late
        · exact absurd early noFree
        · exact .inl (List.mem_cons_of_mem _ late)
        · exact .inr (.inr (fields early ▸ List.mem_cons_self))
        · exact .inr (.inl (List.mem_cons_of_mem _ late))
        · exact absurd early noClose
        · exact .inr (.inr (List.mem_cons_of_mem _ late))

/-- What the jobs of a section free has been taken over by it. -/
theorem Outcome.takes_pointer {rs : List (Resource n)} (outcome : Outcome rs g g' jobs)
    (left : .free r ∈ jobs ∨ .freeField r ∈ jobs ∨ .closeFunc ∈ jobs) :
    g.has r ∧ ¬ g'.has r ∨ g.status ≠ .closed ∧ g'.status = .closed := by
  cases outcome with
  | takes taken =>
    have weigh : ∀ {w : Job n → Nat} {job}, job ∈ jobs → w job ≤ (jobs.map w).sum :=
      fun member => Threads.weight_le_sum member
    rcases left with one | one | one
    · have free := weigh (w := Job.frees r) one
      have frees := taken.frees r
      have single : (Job.free r).frees r = 1 := if_pos rfl
      rw [frees, single] at free
      split at free
      next has =>
        have member : r ∈ rs := List.count_pos_iff.mp free
        exact .inl ⟨has, by simp [taken.has, without, member]⟩
      next => contradiction
    · have field := weigh (w := Job.fields r) one
      have single : (Job.freeField r).fields r = 1 := if_pos rfl
      rw [taken.fields, single] at field
      contradiction
    · have closing := weigh (w := Job.closing) one
      rw [taken.closing] at closing
      contradiction
  | closes opened => exact .inr ⟨opened, rfl⟩
  | stays => simp at left

theorem takeOver_outcome {entry : Entry} (acted : takeOver entry g = some (g', jobs)) :
    ∃ rs, Outcome rs g g' jobs := by
  cases entry with
  | localClose => exact ⟨_, (streamLocalClose_outcome acted).1⟩
  | remoteClose => exact ⟨_, (streamRemoteClose_outcome acted).1⟩

/-- The jobs of a call after its section. -/
theorem Runs.entered {entry : Entry} (run : Runs g (enter entry) ops) :
    ∃ g' g'' jobs later, takeOver entry g = some (g', jobs) ∧ Runs g'' jobs later ∧
      ops = (borrows g entry).map (fun r => .inc (.own r)) ++ later := by
  cases entry with
  | localClose | remoteClose =>
    cases run with
    | job reached fails g'' acted later =>
      rw [List.append_nil] at later
      exact ⟨_, _, _, _, acted, later, rfl⟩

/-- A section that leaves mild jobs, with a drop for each reference it takes, is balanced. -/
theorem Mild.balanced {entry : Entry} (acted : takeOver entry g = some (g', jobs))
    (mild : Mild jobs ops)
    (drops : ∀ r, ops.count (.dec (.own r)) = (borrows g entry).count r) :
    Balanced (TakesPointer entry g)
      ((borrows g entry).map (fun r => .inc (.own r)) ++ ops) where
  once r := by
    rw [List.count_append, borrows_inc, mild.own, Nat.add_zero]
    exact List.nodup_iff_count_le_one.mp (borrows_nodup g entry) r
  own r := by
    rw [List.count_append, List.count_append, borrows_inc, mild.own, borrows_other (by simp),
      drops]
    omega
  point r := by
    rw [List.count_append, List.count_append, borrows_other (by simp), borrows_other (by simp),
      mild.point]
  other r := by
    rw [List.count_append, List.count_append, borrows_other (by simp), borrows_other (by simp),
      mild.other]
  frees r member := by
    rcases List.mem_append.mp member with borrowed | later
    · simp at borrowed
    · obtain ⟨rs, outcome⟩ := takeOver_outcome acted
      exact ⟨g', jobs, acted, outcome.takes_pointer (mild.frees r later)⟩

theorem takeOver_mild {entry : Entry} (acted : takeOver entry g = some (g', jobs))
    (mild : entry = .localClose → ¬ Sends g.status) (r : Resource n) :
    jobs.count (.refDec r) = (borrows g entry).count r ∧ ∀ job ∈ jobs, job.mild := by
  cases entry with
  | remoteClose => exact remoteClose_borrows acted
  | localClose =>
    have quiet := mild rfl
    obtain ⟨left, _⟩ := streamLocalClose_quiet quiet acted
    rw [borrows, if_neg quiet]
    rcases left with rfl | rfl <;> simp [Job.mild]

theorem mild_remote (mild : ∀ job ∈ jobs, job.mild) : .localClose ∉ jobs :=
  fun member => Bool.noConfusion (mild _ member)

theorem Runs.balanced {entry : Entry} (run : Runs g (enter entry) ops)
    (mild : entry = .localClose → ¬ Sends g.status) :
    Balanced (TakesPointer entry g) ops := by
  obtain ⟨g', g'', jobs, later, acted, rest, rfl⟩ := run.entered
  have all := (takeOver_mild acted mild .control).2
  have quiet := rest.mild all
  apply quiet.balanced acted
  intro r
  rw [rest.own (mild_remote all), quiet.own, (takeOver_mild acted mild r).1, Nat.zero_add]

/-- A local close that takes over the pipes leaves no drop on its own ends of the timers. -/
theorem localClose_borrows (sends : Sends g.status) (acted : streamLocalClose g = some (g', jobs))
    (i : Fin 3) : jobs.count (.refDec (.timer i)) = 0 ∧ .localClose ∉ jobs ∧
      (borrows g .localClose).count (.timer i) = 1 := by
  obtain ⟨⟨id, rfl⟩, _⟩ := streamLocalClose_sends sends acted
  refine ⟨?_, ?_, ?_⟩
  · apply List.count_eq_zero.mpr
    simp [frees, timers, rstTimer]
  · simp [frees, timers, rstTimer]
  · rw [borrows, if_pos sends]
    apply List.count_eq_one_of_mem
    · simp [timers]
    · simp [mem_timers]

theorem Runs.timer_kept (run : Runs g (enter .localClose) ops) (sends : Sends g.status)
    (i : Fin 3) :
    ops.count (.inc (.own (.timer i))) = ops.count (.dec (.own (.timer i))) + 1 := by
  obtain ⟨g', g'', jobs, later, acted, rest, rfl⟩ := run.entered
  obtain ⟨left, remote, single⟩ := localClose_borrows sends acted i
  rw [List.count_append, List.count_append, borrows_inc, borrows_other (by simp), rest.own remote,
    left, single]
  omega

theorem held_count {rs : List (Resource n)} (distinct : rs.Nodup) (refs : Resource n → Int)
    (r : Resource n) : held rs refs r = refs r + rs.count r := by
  unfold held
  split
  next member => rw [List.count_eq_one_of_mem distinct member]; rfl
  next other => rw [List.count_eq_zero_of_not_mem other]; simp

theorem takeOver_refs {entry : Entry} (acted : takeOver entry g = some (g', jobs))
    (r : Resource n) :
    g'.refs r = g.refs r + (borrows g entry).count r ∧ g'.pointRefs = g.pointRefs := by
  have distinct : (timers.map Resource.timer : List (Resource n)).Nodup := by simp [timers]
  cases entry with
  | localClose =>
    by_cases sends : Sends g.status
    · obtain ⟨_, refs, points⟩ := streamLocalClose_sends sends acted
      have last : (Fin.last 2 : Fin 3) = 2 := rfl
      refine ⟨?_, points⟩
      rw [refs, held_count distinct, held_count (List.nodup_singleton _), borrows, if_pos sends,
        List.count_append, last]
      omega
    · obtain ⟨_, refs, points⟩ := streamLocalClose_quiet sends acted
      rw [borrows, if_neg sends, refs]
      exact ⟨(Int.add_zero _).symm, points⟩
  | remoteClose =>
    by_cases sends : Sends g.status
    · obtain ⟨_, refs, points⟩ := streamRemoteClose_sends sends acted
      refine ⟨?_, points⟩
      rw [refs, held_count distinct, borrows, if_pos sends, List.count_append]
      split
      · rw [held_count (List.nodup_singleton _)]
        omega
      · simp
    · obtain ⟨_, refs, points⟩ := streamRemoteClose_quiet sends acted
      rw [borrows, if_neg sends, refs]
      exact ⟨(Int.add_zero _).symm, points⟩

theorem takeOver_ops {entry : Entry} (acted : takeOver entry g = some (g', jobs))
    (made : ops = (borrows g entry).map fun r => RefOp.inc (.own r)) (r : Resource n) :
    g'.refs r + ops.count (.dec (.own r)) = g.refs r + ops.count (.inc (.own r)) ∧
      g'.pointRefs r + ops.count (.dec (.point r)) =
        g.pointRefs r + ops.count (.inc (.point r)) := by
  subst made
  obtain ⟨refs, points⟩ := takeOver_refs acted r
  rw [refs, points, borrows_inc, borrows_other (by simp), borrows_other (by simp),
    borrows_other (by simp)]
  exact ⟨by omega, rfl⟩

/-- The references of a stream move as its jobs take and drop them, where the other ends are
reached. -/
theorem act_refs (acted : act fails job g = some (g', jobs)) (r : Resource n) :
    g'.refs r + (refOps true g job).count (.dec (.own r)) =
        g.refs r + (refOps true g job).count (.inc (.own r)) ∧
      g'.pointRefs r + (refOps true g job).count (.dec (.point r)) =
        g.pointRefs r + (refOps true g job).count (.inc (.point r)) := by
  cases job with
  | localClose =>
    have acted : takeOver .localClose g = some (g', jobs) := acted
    exact takeOver_ops acted rfl r
  | remoteClose =>
    have acted : takeOver .remoteClose g = some (g', jobs) := acted
    exact takeOver_ops acted rfl r
  | sendRst id | recvEvent | sendEvent | stop i =>
    cases acted
    simp only [refOps, callPipePointFunc_inc_own, callPipePointFunc_dec_own,
      (callPipePointFunc_reached _).1, List.count_nil]
    simp
  | refDec s =>
    cases acted
    by_cases same : s = r
    · subst same
      simp [refOps]
    · simp [refOps, same, Function.update_of_ne (Ne.symm same)]
  | pointRefDec s =>
    cases acted
    by_cases same : s = r
    · subst same
      simp [refOps, callPipePointFunc, List.count]
      omega
    · simp [refOps, callPipePointFunc, List.count, same,
        Function.update_of_ne (Ne.symm same)]
  | free s =>
    cases acted
    simp [refOps, release]
  | closeFunc =>
    cases acted
    simp [refOps]
  | freeField s =>
    cases acted
    cases has : g.has s <;> simp [refOps, has, release]

end

/-- A stream that sends, with all its pipes and blocks. -/
def sending : Stream 0 where
  status := .synSend
  shutFlags := canRecv ||| canSend
  recvTotalLen := 0
  has _ := true
  pipeStatus _ := .active
  markIds _ := 0
  released _ := 0
  refs _ := 0
  pointRefs _ := 0
  closeRuns := 0

/-- A close that no other close comes between. -/
def closeAlone (reached fails : Bool) : Nat → Stream n → List (Job n) → Option (List (RefOp n))
  | _, _, [] => some []
  | 0, _, _ :: _ => none
  | fuel + 1, g, job :: rest =>
    (act fails job g).bind fun r =>
      (closeAlone reached fails fuel r.1 (r.2 ++ rest)).map fun ops => refOps reached g job ++ ops

theorem closeAlone_runs {reached fails : Bool} {g : Stream n} {jobs : List (Job n)}
    {ops : List (RefOp n)} (closed : closeAlone reached fails fuel g jobs = some ops) :
    Runs g jobs ops := by
  induction fuel generalizing g jobs ops with
  | zero =>
    cases jobs with
    | nil =>
      cases closed
      exact .done
    | cons job rest => contradiction
  | succ fuel ih =>
    cases jobs with
    | nil =>
      cases closed
      exact .done
    | cons job rest =>
      obtain ⟨⟨g', jobs⟩, acted, mapped⟩ := Option.bind_eq_some_iff.mp closed
      obtain ⟨later, ran, rfl⟩ := Option.map_eq_some_iff.mp mapped
      exact .job reached fails g' acted (ih ran)

theorem sending_closes (entry : Entry) : ∃ ops, Runs sending (enter entry) ops := by
  have finished : (closeAlone true false 20 sending (enter entry)).isSome := by
    cases entry <;> decide +kernel
  obtain ⟨ops, closed⟩ := Option.isSome_iff_exists.mp finished
  exact ⟨ops, closeAlone_runs closed⟩

theorem localClose_unbalanced :
    ∃ ops, Runs sending (enter .localClose) ops ∧
      ¬ Balanced (TakesPointer .localClose sending) ops := by
  obtain ⟨ops, run⟩ := sending_closes .localClose
  refine ⟨ops, run, fun balanced => ?_⟩
  have kept := run.timer_kept (.inr (.inl rfl)) 0
  have own := balanced.own (.timer 0)
  omega

/-- A close drops what it has borrowed unless it is a local close that takes over the pipes. -/
theorem balanced_iff {g : Stream n} {entry : Entry} {ops : List (RefOp n)}
    (run : Runs g (enter entry) ops) :
    Balanced (TakesPointer entry g) ops ↔ ¬ (entry = .localClose ∧ Sends g.status) := by
  constructor
  · rintro balanced ⟨rfl, sends⟩
    have kept := run.timer_kept sends 0
    have own := balanced.own (.timer 0)
    omega
  · intro mild
    exact run.balanced fun kind sends => mild ⟨kind, sends⟩

theorem balanced_iff_sending : ∃ ops, Runs sending (enter .remoteClose) ops ∧
    Balanced (TakesPointer .remoteClose sending) ops := by
  obtain ⟨ops, run⟩ := sending_closes .remoteClose
  exact ⟨ops, run, (balanced_iff run).mpr fun both => Entry.noConfusion both.1⟩

end MoonInWater.Session.StreamClose
