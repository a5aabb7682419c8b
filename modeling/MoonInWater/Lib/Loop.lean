import Mathlib.Tactic.Common

/-! Loops over a list that end early: a return value below zero is returned at once, behind the last
turn the value is 0. -/
namespace MoonInWater.Loop

section
variable {α β σ : Type} (body : α → σ → Option (σ × Int))

def each : List α → σ → Option (σ × Int)
  | [], s => some (s, 0)
  | a :: as, s => (body a s).bind fun r => if r.2 < 0 then some r else each as r.1

variable {body}

theorem each_nil (s : σ) : each body [] s = some (s, 0) := rfl

theorem each_cons (a : α) (as : List α) (s : σ) :
    each body (a :: as) s = (body a s).bind fun r => if r.2 < 0 then some r else each body as r.1 :=
  rfl

theorem each_append (as bs : List α) (s : σ) :
    each body (as ++ bs) s =
      (each body as s).bind fun r => if r.2 < 0 then some r else each body bs r.1 := by
  induction as generalizing s with
  | nil => rfl
  | cons a as ih =>
    rw [List.cons_append, each_cons, each_cons]
    cases body a s with
    | none => rfl
    | some r =>
      rw [Option.bind_some, Option.bind_some]
      by_cases failed : r.2 < 0
      · rw [if_pos failed, if_pos failed, Option.bind_some, if_pos failed]
      · rw [if_neg failed, if_neg failed]
        exact ih r.1

/-- A loop over the lists of some elements is a loop within a loop. -/
theorem each_flatMap (f : β → List α) (bs : List β) (s : σ) :
    each body (bs.flatMap f) s = each (fun b => each body (f b)) bs s := by
  induction bs generalizing s with
  | nil => rfl
  | cons b bs ih =>
    rw [List.flatMap_cons, each_append, each_cons]
    congr 1
    funext r
    by_cases failed : r.2 < 0
    · rw [if_pos failed, if_pos failed]
    · rw [if_neg failed, if_neg failed]
      exact ih r.1

theorem each_congr {body' : α → σ → Option (σ × Int)} {as : List α}
    (same : ∀ a ∈ as, ∀ s, body a s = body' a s) (s : σ) : each body as s = each body' as s := by
  induction as generalizing s with
  | nil => rfl
  | cons a as ih =>
    rw [each_cons, each_cons, same a List.mem_cons_self]
    congr 1
    funext r
    by_cases failed : r.2 < 0
    · rw [if_pos failed, if_pos failed]
    · rw [if_neg failed, if_neg failed]
      exact ih (fun a member => same a (List.mem_cons_of_mem _ member)) r.1

theorem each_map (f : β → α) (bs : List β) (s : σ) :
    each body (bs.map f) s = each (fun b => body (f b)) bs s := by
  induction bs generalizing s with
  | nil => rfl
  | cons b bs ih =>
    rw [List.map_cons, each_cons, each_cons]
    congr 1
    funext r
    by_cases failed : r.2 < 0
    · rw [if_pos failed, if_pos failed]
    · rw [if_neg failed, if_neg failed]
      exact ih r.1

/-- A loop over the indexes of a list. -/
theorem each_range {body : Nat → σ → Option (σ × Int)} {body' : α → σ → Option (σ × Int)}
    {as : List α} (same : ∀ i a, as[i]? = some a → ∀ s, body i s = body' a s) (s : σ) :
    each body (List.range as.length) s = each body' as s := by
  induction as generalizing body s with
  | nil => rfl
  | cons a as ih =>
    rw [List.length_cons, List.range_succ_eq_map, each_cons, each_cons, same 0 a rfl]
    congr 1
    funext r
    by_cases failed : r.2 < 0
    · rw [if_pos failed, if_pos failed]
    · rw [if_neg failed, if_neg failed, each_map]
      exact ih (fun i a here => same (i + 1) a here) r.1

/-- A loop of one turn, which returns 0 or a value below zero. -/
theorem each_singleton {a : α} {s : σ} (ret : ∀ r, body a s = some r → 0 ≤ r.2 → r.2 = 0) :
    each body [a] s = body a s := by
  rw [each_cons]
  cases turn : body a s with
  | none => rfl
  | some r =>
    rw [Option.bind_some]
    by_cases failed : r.2 < 0
    · rw [if_pos failed]
    · rw [if_neg failed, each_nil, ← ret r turn (Int.not_lt.mp failed)]

/-- A loop whose turns do not fail. -/
theorem each_total {step : α → σ → σ} {as : List α}
    (total : ∀ a ∈ as, ∀ s, body a s = some (step a s, 0)) (s : σ) :
    each body as s = some (as.foldl (fun s a => step a s) s, 0) := by
  induction as generalizing s with
  | nil => rfl
  | cons a as ih =>
    rw [each_cons, total a List.mem_cons_self, Option.bind_some, if_neg (Int.lt_irrefl 0)]
    exact ih (fun a member => total a (List.mem_cons_of_mem _ member)) (step a s)

end
end MoonInWater.Loop
