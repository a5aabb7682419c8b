import Mathlib.Data.Multiset.Bind
import MoonInWater.Lib.Threads

/-! Programs whose calls are stacks of jobs: the first job of a call acts and
leaves jobs that are done before the others. -/
namespace MoonInWater.Jobs
open Threads
variable {G E J C : Type}

/-- The jobs that a call has left, with the entry that started it. -/
structure Call (E J : Type) where
  entry : E
  jobs : List J
deriving DecidableEq

def program (enter : E → List J) (act : C → J → G → Option (G × List J)) :
    Program G (Call E J) E C where
  start e g := some (g, ⟨e, enter e⟩)
  step a g l :=
    match l.jobs with
    | [] => none
    | job :: rest => (act a job g).map fun r => (r.1, ⟨l.entry, r.2 ++ rest⟩)

/-- Sum of a weight over the jobs of a call. -/
def Call.sum (w : J → Nat) (l : Call E J) : Nat := (l.jobs.map w).sum

/-- Sum of a weight over all jobs that are left. -/
def pending (c : Config G (Call E J)) (w : J → Nat) : Nat := c.total (Call.sum w)

section
variable {enter : E → List J} {act : C → J → G → Option (G × List J)}

theorem step_cases {a : C} {g g' : G} {l l' : Call E J}
    (acted : (program enter act).step a g l = some (g', l')) :
    ∃ job rest jobs, l = ⟨l.entry, job :: rest⟩ ∧ act a job g = some (g', jobs) ∧
      l' = ⟨l.entry, jobs ++ rest⟩ := by
  obtain ⟨entry, jobs⟩ := l
  cases jobs with
  | nil => contradiction
  | cons job rest =>
    obtain ⟨⟨g₁, jobs⟩, done, same⟩ := Option.map_eq_some_iff.mp acted
    cases same
    exact ⟨job, rest, jobs, rfl, done, rfl⟩

theorem pending_start (w : J → Nat) (g : G) (ls : List (Call E J)) (e : E) :
    pending ⟨g, ls ++ [⟨e, enter e⟩]⟩ w = pending ⟨g, ls⟩ w + ((enter e).map w).sum :=
  total_start _ g g ls _

theorem pending_jobs (w : J → Nat) (g : G) (pre post : List (Call E J)) (e : E)
    (jobs rest : List J) :
    pending ⟨g, pre ++ ⟨e, jobs ++ rest⟩ :: post⟩ w =
      (jobs.map w).sum + ((rest.map w).sum + others (Call.sum w) pre post) := by
  simp [pending, Call.sum, Nat.add_assoc]

/-- The induction over a run for a property of the shared state and of the jobs that are left. -/
theorem reaches_pending {I : G → ((J → Nat) → Nat) → Prop} {c c' : Config G (Call E J)}
    (initial : I c.shared (pending c))
    (starts : ∀ {g : G} {W : (J → Nat) → Nat} (e : E), I g W →
      I g fun w => W w + ((enter e).map w).sum)
    (acts : ∀ {a : C} {job : J} {g g' : G} {jobs : List J} {W : (J → Nat) → Nat},
      I g (fun w => w job + W w) → act a job g = some (g', jobs) →
      I g' fun w => (jobs.map w).sum + W w)
    (run : (program enter act).Reaches c c') : I c'.shared (pending c') := by
  apply Program.Reaches.invariant (I := fun c => I c.shared (pending c)) initial _ _ run
  · intro e g g' l ls inv started
    cases started
    have sums : pending ⟨g, ls ++ [⟨e, enter e⟩]⟩ =
        fun w => pending ⟨g, ls⟩ w + ((enter e).map w).sum :=
      funext fun w => pending_start w g ls e
    rw [sums]
    exact starts e inv
  · intro a g g' l l' pre post inv acted
    obtain ⟨job, rest, jobs, call, done, rfl⟩ := step_cases acted
    have before : pending ⟨g, pre ++ l :: post⟩ =
        fun w => w job + ((rest.map w).sum + others (Call.sum w) pre post) := by
      rw [call]
      funext w
      exact (pending_jobs w g pre post l.entry [job] rest).trans (by simp)
    have after : pending ⟨g', pre ++ ⟨l.entry, jobs ++ rest⟩ :: post⟩ =
        fun w => (jobs.map w).sum + ((rest.map w).sum + others (Call.sum w) pre post) :=
      funext fun w => pending_jobs w g' pre post l.entry jobs rest
    rw [before] at inv
    rw [after]
    exact acts inv done

/-- The jobs that the calls have left, in no order. -/
def left (c : Config G (Call E J)) : Multiset J := (c.calls.flatMap fun l => l.jobs : List J)

theorem left_jobs (g : G) (pre post : List (Call E J)) (e : E) (jobs rest : List J) :
    left ⟨g, pre ++ ⟨e, jobs ++ rest⟩ :: post⟩ =
      (jobs : Multiset J) + ((rest ++ (pre ++ post).flatMap fun l => l.jobs : List J) :) := by
  let left (ls : List (Call E J)) : Multiset J := (ls.flatMap fun l => l.jobs : List J)
  have split : ∀ ls ls' : List (Call E J), left (ls ++ ls') = left ls + left ls' := fun ls ls' =>
    by simp only [left, List.flatMap_append, Multiset.coe_add]
  calc left (pre ++ ⟨e, jobs ++ rest⟩ :: post)
      = left pre + (jobs + (rest + left post)) := by
        rw [split]
        simp only [left, List.flatMap_cons, List.append_assoc, Multiset.coe_add]
    _ = jobs + (rest + (left pre + left post)) := by
        rw [add_left_comm, add_left_comm (left pre)]
    _ = jobs + ((rest ++ (pre ++ post).flatMap fun l => l.jobs : List J) :) := by
        rw [← split, Multiset.coe_add]

/-- The induction over a run for a property of the shared state and of the jobs that are left, taken
together. -/
theorem reaches_left {I : G → Multiset J → Prop} {c c' : Config G (Call E J)}
    (initial : I c.shared (left c))
    (starts : ∀ {g : G} {M : Multiset J} (e : E), I g M → I g (enter e + M))
    (acts : ∀ {a : C} {job : J} {g g' : G} {jobs : List J} {M : Multiset J},
      I g (job ::ₘ M) → act a job g = some (g', jobs) → I g' (jobs + M))
    (run : (program enter act).Reaches c c') : I c'.shared (left c') := by
  apply Program.Reaches.invariant (I := fun c => I c.shared (left c)) initial _ _ run
  · intro e g g' l ls inv started
    cases started
    have more := left_jobs (E := E) g ls [] e (enter e) []
    rw [List.append_nil, List.append_nil, List.nil_append] at more
    rw [more]
    exact starts e inv
  · intro a g g' l l' pre post inv acted
    obtain ⟨job, rest, jobs, call, done, rfl⟩ := step_cases acted
    have before := left_jobs g pre post l.entry [job] rest
    rw [List.singleton_append, ← call, Multiset.coe_singleton, Multiset.singleton_add] at before
    rw [before] at inv
    rw [left_jobs]
    exact acts inv done

/-- The induction over a run for a property that each call has. -/
theorem reaches_calls {Q : G → E → List J → Prop} {c c' : Config G (Call E J)}
    (initial : ∀ l ∈ c.calls, Q c.shared l.entry l.jobs) (starts : ∀ g e, Q g e (enter e))
    (acts : ∀ {a job g g' e rest jobs}, Q g e (job :: rest) → act a job g = some (g', jobs) →
      Q g' e (jobs ++ rest))
    (kept : ∀ {a job g g' e rest jobs}, Q g e rest → act a job g = some (g', jobs) → Q g' e rest)
    (run : (program enter act).Reaches c c') : ∀ l ∈ c'.calls, Q c'.shared l.entry l.jobs := by
  apply Program.Reaches.invariant (I := fun c => ∀ l ∈ c.calls, Q c.shared l.entry l.jobs)
    initial _ _ run
  · intro e g g' l ls all started
    cases started
    exact forall_start all (starts g e) fun _ => id
  · intro a g g' l l' pre post all acted
    obtain ⟨job, rest, jobs, call, done, rfl⟩ := step_cases acted
    have own : Q g l.entry l.jobs := all l (by simp)
    rw [call] at own
    exact forall_split all (acts own done) fun _ _ other => kept other done

/-- Calls whose jobs can always act, and shrink by it, can be finished. -/
theorem finishes {I : Config G (Call E J) → Prop} (w : J → Nat)
    (shrinks : ∀ {a job g g' jobs}, act a job g = some (g', jobs) → (jobs.map w).sum < w job)
    (keeps : ∀ {c c'}, I c → (program enter act).Step c c' → I c')
    (acts : ∀ {g e job rest pre post}, I ⟨g, pre ++ ⟨e, job :: rest⟩ :: post⟩ →
      ∃ a, (act a job g).isSome)
    {c : Config G (Call E J)} (inv : I c) :
    ∃ c', (program enter act).Reaches c c' ∧ ∀ l ∈ c'.calls, l.jobs = [] := by
  induction left : pending c w using Nat.strong_induction_on generalizing c with
  | h m ih =>
    by_cases done : ∀ l ∈ c.calls, l.jobs = []
    · exact ⟨c, .refl, done⟩
    obtain ⟨⟨e, jobs⟩, member, some⟩ : ∃ l ∈ c.calls, l.jobs ≠ [] := by
      simpa using done
    obtain ⟨g, ls⟩ := c
    obtain ⟨pre, post, rfl⟩ := List.mem_iff_append.mp member
    obtain ⟨job, rest, rfl⟩ := List.exists_cons_of_ne_nil some
    obtain ⟨a, able⟩ := acts inv
    obtain ⟨⟨g', jobs⟩, acted⟩ := Option.isSome_iff_exists.mp able
    have step : (program enter act).Step ⟨g, pre ++ ⟨e, job :: rest⟩ :: post⟩
        ⟨g', pre ++ ⟨e, jobs ++ rest⟩ :: post⟩ :=
      .step (a := a) (Option.map_eq_some_iff.mpr ⟨_, acted, rfl⟩)
    have less : pending ⟨g', pre ++ ⟨e, jobs ++ rest⟩ :: post⟩ w < m := by
      rw [← left, pending_jobs w g' pre post e jobs rest]
      have before := pending_jobs w g pre post e [job] rest
      have small := shrinks acted
      simp only [List.singleton_append, List.map_cons, List.map_nil, List.sum_cons,
        List.sum_nil] at before
      omega
    obtain ⟨c', run, finished⟩ := ih _ less (keeps inv step) rfl
    exact ⟨c', .head step run, finished⟩

end
end MoonInWater.Jobs
