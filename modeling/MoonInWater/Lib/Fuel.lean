import Mathlib.Tactic.Common

/-! Results of functions that take fuel for their loops. -/
namespace MoonInWater.Fuel

/-- The function returns `a`, whatever the fuel, from some amount on. -/
def Returns (f : Nat → Option A) (a : A) : Prop := ∃ n, ∀ fuel, n < fuel → f fuel = some a

theorem Returns.unique (first : Returns f a) (second : Returns f b) : a = b := by
  obtain ⟨n, first⟩ := first
  obtain ⟨k, second⟩ := second
  have same := (first (n + k + 1) (by omega)).symm.trans (second (n + k + 1) (by omega))
  exact Option.some.inj same

theorem Returns.of_add {f : Nat → Option A} (n : Nat) (run : ∀ k, f (k + n) = some a) :
    Returns f a := by
  refine ⟨n, fun fuel enough => ?_⟩
  obtain ⟨k, rfl⟩ := Nat.exists_eq_add_of_le' (Nat.le_of_lt enough)
  exact run k

theorem Returns.of_eq {f : Nat → Option A} (run : ∀ fuel, f fuel = some a) : Returns f a :=
  ⟨0, fun fuel _ => run fuel⟩

theorem Returns.pure (a : A) : Returns (fun _ => some a) a := .of_eq fun _ => rfl

theorem Returns.imp (run : Returns f a) (next : ∀ fuel, f fuel = some a → g fuel = some b) :
    Returns g b := by
  obtain ⟨n, run⟩ := run
  exact ⟨n, fun fuel enough => next fuel (run fuel enough)⟩

theorem Returns.imp₂ (first : Returns f a) (second : Returns g b)
    (next : ∀ fuel, f fuel = some a → g fuel = some b → h fuel = some c) : Returns h c := by
  obtain ⟨n, first⟩ := first
  obtain ⟨k, second⟩ := second
  exact ⟨n + k, fun fuel enough => next fuel (first fuel (by omega)) (second fuel (by omega))⟩

theorem Returns.imp₃ (first : Returns f a) (second : Returns g b) (third : Returns h c)
    (next : ∀ fuel, f fuel = some a → g fuel = some b → h fuel = some c → k fuel = some d) :
    Returns k d := by
  obtain ⟨n₁, first⟩ := first
  obtain ⟨n₂, second⟩ := second
  obtain ⟨n₃, third⟩ := third
  exact ⟨n₁ + n₂ + n₃, fun fuel enough => next fuel (first fuel (by omega))
    (second fuel (by omega)) (third fuel (by omega))⟩

theorem Returns.bind {g : Nat → A → Option B} (first : Returns f a)
    (second : Returns (fun fuel => g fuel a) b) :
    Returns (fun fuel => (f fuel).bind (g fuel)) b :=
  first.imp₂ second fun fuel here rest => by rw [here, Option.bind_some, rest]

theorem Returns.map {f : Nat → Option A} (run : Returns f a) (g : A → B) :
    Returns (fun fuel => (f fuel).map g) (g a) :=
  run.imp fun fuel here => by rw [here, Option.map_some]

/-- One step of a loop that takes its fuel along. -/
theorem Returns.succ {f g : Nat → Option A} (turn : ∀ fuel, f (fuel + 1) = g fuel)
    (rest : Returns g a) : Returns f a := by
  obtain ⟨n, rest⟩ := rest
  refine ⟨n + 1, fun fuel enough => ?_⟩
  obtain ⟨k, rfl⟩ := Nat.exists_eq_succ_of_ne_zero (Nat.ne_zero_of_lt enough)
  rw [turn]
  exact rest k (by omega)

open Classical in
/-- What the function returns from some amount of fuel on, if it returns. -/
noncomputable def limit (f : Nat → Option A) : Option A :=
  if returns : ∃ a, Returns f a then some returns.choose else none

theorem Returns.limit_eq (run : Returns f a) : limit f = some a := by
  have returns : ∃ a, Returns f a := ⟨a, run⟩
  rw [limit, dif_pos returns, returns.choose_spec.unique run]

theorem limit_eq_some : limit f = some a ↔ Returns f a := by
  refine ⟨fun same => ?_, Returns.limit_eq⟩
  unfold limit at same
  split at same
  next returns =>
    rw [← Option.some.inj same]
    exact returns.choose_spec
  next => contradiction

/-- More fuel does not change a result. -/
def Stable (f : Nat → Option A) : Prop := ∀ n k a, n ≤ k → f n = some a → f k = some a

theorem Stable.const (value : Option A) : Stable fun _ => value := fun _ _ _ _ result => result

theorem Stable.bind {f : Nat → Option A} {g : Nat → A → Option B} (first : Stable f)
    (second : ∀ a, Stable fun fuel => g fuel a) : Stable fun fuel => (f fuel).bind (g fuel) := by
  intro n k b le result
  obtain ⟨a, here, rest⟩ := Option.bind_eq_some_iff.mp result
  exact Option.bind_eq_some_iff.mpr ⟨a, first n k a le here, second a n k b le rest⟩

theorem Stable.map {f : Nat → Option A} (first : Stable f) (g : A → B) :
    Stable fun fuel => (f fuel).map g := by
  intro n k b le result
  obtain ⟨a, here, rest⟩ := Option.map_eq_some_iff.mp result
  exact Option.map_eq_some_iff.mpr ⟨a, first n k a le here, rest⟩

theorem Stable.ite {f g : Nat → Option A} (test : Prop) [Decidable test] (first : Stable f)
    (second : Stable g) : Stable fun fuel => if test then f fuel else g fuel := by
  by_cases holds : test
  · simpa only [if_pos holds] using first
  · simpa only [if_neg holds] using second

theorem Stable.of_succ {f : Nat → Option A} (more : ∀ n a, f n = some a → f (n + 1) = some a) :
    Stable f := by
  intro n k a le result
  induction le with
  | refl => exact result
  | step _ ih => exact more _ a ih

theorem Stable.returns {f : Nat → Option A} (stable : Stable f) (result : f n = some a) :
    Returns f a := ⟨n, fun fuel enough => stable n fuel a (Nat.le_of_lt enough) result⟩

end MoonInWater.Fuel
