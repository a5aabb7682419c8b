/-! A machine with partial steps and outputs that follows an abstract one along a list of
operations. -/
namespace MoonInWater.Machine
variable {Op S A Out : Type}

/-- The machine has a step for each operation, each of which is as the abstract state before it
asks for, and every state it reaches matches the abstract one. -/
def Follows (step : Op → S → Option (S × Out)) (spec : Op → A → A)
    (allowed : Op → A → S → S → Out → Prop) (Matches : S → A → Prop) : List Op → S → A → Prop
  | [], s, a => Matches s a
  | op :: ops, s, a => Matches s a ∧ ∃ s' out, step op s = some (s', out) ∧
      allowed op a s s' out ∧ Follows step spec allowed Matches ops s' (spec op a)

/-- Each step of the run starts in a state that meets a condition. -/
def Meets (step : Op → S → Option (S × Out)) (clean : Op → S → Prop) : List Op → S → Prop
  | [], _ => True
  | op :: ops, s => clean op s ∧ ∀ s' out, step op s = some (s', out) → Meets step clean ops s'

/-- Each operation is one that the abstract state in front of it asks for. -/
def Legal (legal : Op → A → Prop) (spec : Op → A → A) : List Op → A → Prop
  | [], _ => True
  | op :: ops, a => legal op a ∧ Legal legal spec ops (spec op a)

section
variable {step : Op → S → Option (S × Out)} {spec : Op → A → A} {legal : Op → A → Prop}
variable {allowed : Op → A → S → S → Out → Prop} {Matches : S → A → Prop}
variable {clean : Op → S → Prop} {Inv : S → A → Prop}

theorem Legal.always (always : ∀ op a, legal op a) (ops : List Op) (a : A) :
    Legal legal spec ops a := by
  induction ops generalizing a with
  | nil => trivial
  | cons op ops ih => exact ⟨always op a, ih _⟩

/-- What each step from a clean state keeps holds along a run of such steps. -/
theorem Legal.follows_of_meets (matching : ∀ s a, Inv s a → Matches s a)
    (keeps : ∀ op s a, Inv s a → legal op a → clean op s → ∃ s' out, step op s = some (s', out) ∧
      allowed op a s s' out ∧ Inv s' (spec op a)) {ops : List Op} {s : S} {a : A}
    (fine : Legal legal spec ops a) (inv : Inv s a) (meets : Meets step clean ops s) :
    Follows step spec allowed Matches ops s a := by
  induction ops generalizing s a with
  | nil => exact matching s a inv
  | cons op ops ih =>
    obtain ⟨ok, rest⟩ := meets
    obtain ⟨s', out, ran, good, inv'⟩ := keeps op s a inv fine.1 ok
    exact ⟨matching s a inv, s', out, ran, good, ih fine.2 inv' (rest s' out ran)⟩

/-- Where a step that follows the abstract machine starts in a clean state, so does each step of
a run that follows it. -/
theorem Legal.meets_of_follows
    (keeps : ∀ op s a, Inv s a → legal op a → clean op s → ∃ s' out, step op s = some (s', out) ∧
      allowed op a s s' out ∧ Inv s' (spec op a))
    (forced : ∀ op s a s' out, Inv s a → legal op a → step op s = some (s', out) →
      allowed op a s s' out → Matches s' (spec op a) → clean op s) {ops : List Op} {s : S} {a : A}
    (fine : Legal legal spec ops a) (inv : Inv s a)
    (follows : Follows step spec allowed Matches ops s a) : Meets step clean ops s := by
  induction ops generalizing s a with
  | nil => trivial
  | cons op ops ih =>
    obtain ⟨_, s', out, ran, good, rest⟩ := follows
    have matching : Matches s' (spec op a) := by
      cases ops with
      | nil => exact rest
      | cons next ops => exact rest.1
    have ok := forced op s a s' out inv fine.1 ran good matching
    refine ⟨ok, ?_⟩
    intro s'' out' ran'
    obtain ⟨t, out'', ran'', _, inv'⟩ := keeps op s a inv fine.1 ok
    cases ran.symm.trans ran'
    cases ran.symm.trans ran''
    exact ih fine.2 inv' rest

theorem Legal.follows_iff_meets (matching : ∀ s a, Inv s a → Matches s a)
    (keeps : ∀ op s a, Inv s a → legal op a → clean op s → ∃ s' out, step op s = some (s', out) ∧
      allowed op a s s' out ∧ Inv s' (spec op a))
    (forced : ∀ op s a s' out, Inv s a → legal op a → step op s = some (s', out) →
      allowed op a s s' out → Matches s' (spec op a) → clean op s) {ops : List Op} {s : S} {a : A}
    (fine : Legal legal spec ops a) (inv : Inv s a) :
    Follows step spec allowed Matches ops s a ↔ Meets step clean ops s := by
  constructor
  · exact Legal.meets_of_follows keeps forced fine inv
  · exact Legal.follows_of_meets matching keeps fine inv

/-- Both conditions on the states of a run. -/
theorem Meets.and {fresh : Op → S → Prop} {ops : List Op} {s : S} (first : Meets step fresh ops s)
    (second : Meets step clean ops s) : Meets step (fun op s => fresh op s ∧ clean op s) ops s := by
  induction ops generalizing s with
  | nil => trivial
  | cons op ops ih =>
    refine ⟨⟨first.1, second.1⟩, ?_⟩
    intro s' out ran
    exact ih (first.2 s' out ran) (second.2 s' out ran)

theorem follows_of_meets (matching : ∀ s a, Inv s a → Matches s a)
    (keeps : ∀ op s a, Inv s a → clean op s → ∃ s' out, step op s = some (s', out) ∧
      allowed op a s s' out ∧ Inv s' (spec op a)) {ops : List Op} {s : S} {a : A}
    (inv : Inv s a) (meets : Meets step clean ops s) :
    Follows step spec allowed Matches ops s a :=
  Legal.follows_of_meets matching (fun op s a inv _ => keeps op s a inv)
    (Legal.always (fun _ _ => True.intro) ops a) inv meets

theorem follows_iff_meets (matching : ∀ s a, Inv s a → Matches s a)
    (keeps : ∀ op s a, Inv s a → clean op s → ∃ s' out, step op s = some (s', out) ∧
      allowed op a s s' out ∧ Inv s' (spec op a))
    (forced : ∀ op s a s' out, Inv s a → step op s = some (s', out) → allowed op a s s' out →
      Matches s' (spec op a) → clean op s) {ops : List Op} {s : S} {a : A} (inv : Inv s a) :
    Follows step spec allowed Matches ops s a ↔ Meets step clean ops s :=
  Legal.follows_iff_meets matching (fun op s a inv _ => keeps op s a inv)
    (fun op s a s' out inv _ => forced op s a s' out inv)
    (Legal.always (fun _ _ => True.intro) ops a) inv

/-- The same for runs that keep to a condition of the machine's own states. -/
theorem Meets.follows_iff_meets {fresh : Op → S → Prop} (matching : ∀ s a, Inv s a → Matches s a)
    (keeps : ∀ op s a, Inv s a → fresh op s → clean op s → ∃ s' out,
      step op s = some (s', out) ∧ allowed op a s s' out ∧ Inv s' (spec op a))
    (forced : ∀ op s a s' out, Inv s a → fresh op s → step op s = some (s', out) →
      allowed op a s s' out → Matches s' (spec op a) → clean op s) {ops : List Op} {s : S} {a : A}
    (inv : Inv s a) (run : Meets step fresh ops s) :
    Follows step spec allowed Matches ops s a ↔ Meets step clean ops s := by
  constructor
  · intro follows
    induction ops generalizing s a with
    | nil => trivial
    | cons op ops ih =>
      obtain ⟨_, s', out, ran, good, rest⟩ := follows
      have matching : Matches s' (spec op a) := by
        cases ops with
        | nil => exact rest
        | cons next ops => exact rest.1
      have ok := forced op s a s' out inv run.1 ran good matching
      refine ⟨ok, ?_⟩
      intro s'' out' ran'
      obtain ⟨t, out'', ran'', _, inv'⟩ := keeps op s a inv run.1 ok
      cases ran.symm.trans ran'
      cases ran.symm.trans ran''
      exact ih inv' (run.2 s' out ran) rest
  · intro meets
    have keeps' : ∀ op s a, Inv s a → fresh op s ∧ clean op s → ∃ s' out,
        step op s = some (s', out) ∧ allowed op a s s' out ∧ Inv s' (spec op a) :=
      fun op s a inv both => keeps op s a inv both.1 both.2
    exact follows_of_meets matching keeps' inv (run.and meets)

/-- A condition of the operations alone. -/
theorem Meets.of_forall {ops : List Op} {s : S} {good : Op → Prop} (all : ∀ op ∈ ops, good op) :
    Meets step (fun op _ => good op) ops s := by
  induction ops generalizing s with
  | nil => trivial
  | cons op ops ih =>
    obtain ⟨first, rest⟩ := List.forall_mem_cons.mp all
    exact ⟨first, fun _ _ _ => ih rest⟩

theorem Follows.forall_of_meets {ops : List Op} {s : S} {a : A} {good : Op → Prop}
    (follows : Follows step spec allowed Matches ops s a)
    (meets : Meets step (fun op _ => good op) ops s) : ∀ op ∈ ops, good op := by
  induction ops generalizing s a with
  | nil => exact fun _ member => absurd member List.not_mem_nil
  | cons op ops ih =>
    obtain ⟨_, s', out, ran, _, rest⟩ := follows
    exact List.forall_mem_cons.mpr ⟨meets.1, ih rest (meets.2 s' out ran)⟩

end
end MoonInWater.Machine
