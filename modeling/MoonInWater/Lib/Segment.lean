import Mathlib.Data.List.Nodup
import Mathlib.Logic.Function.Basic
import Mathlib.Tactic.Common

/-! Segments of singly linked lists on a heap of links. -/
namespace MoonInWater.Chain
variable {P : Type}

/-- The links lead from `first` through the elements and on to `after`. -/
def Segment (next : P → Option P) : Option P → List P → Option P → Prop
  | first, [], after => first = after
  | first, p :: l, after => first = some p ∧ Segment next (next p) l after

variable {next next' : P → Option P} {first after : Option P} {p : P} {l r : List P}

theorem segment_append : Segment next first (l ++ r) after ↔
    ∃ middle, Segment next first l middle ∧ Segment next middle r after := by
  induction l generalizing first with
  | nil => simp [Segment]
  | cons p l ih =>
    simp only [List.cons_append, Segment, ih]
    constructor
    · rintro ⟨begins, middle, left, right⟩
      exact ⟨middle, ⟨begins, left⟩, right⟩
    · rintro ⟨middle, ⟨begins, left⟩, right⟩
      exact ⟨begins, middle, left, right⟩

/-- Writes to the links of other elements leave a segment as it is. -/
theorem Segment.congr (segment : Segment next first l after) (same : ∀ p ∈ l, next' p = next p) :
    Segment next' first l after := by
  induction l generalizing first with
  | nil => exact segment
  | cons p l ih =>
    obtain ⟨begins, rest⟩ := segment
    refine ⟨begins, ?_⟩
    rw [same p List.mem_cons_self]
    exact ih rest fun q member => same q (List.mem_cons_of_mem _ member)

theorem Segment.first_eq (segment : Segment next first l after) : first = l.head?.or after := by
  cases l with
  | nil => exact segment
  | cons p l => exact segment.1

theorem Segment.last_eq (segment : Segment next first (l ++ [p]) after) : next p = after := by
  rw [segment_append] at segment
  obtain ⟨middle, _, _, last⟩ := segment
  exact last

theorem Segment.split (segment : Segment next first (l ++ p :: r) after) :
    Segment next first l (some p) ∧ Segment next (some p) (p :: r) after := by
  rw [segment_append] at segment
  obtain ⟨middle, left, right⟩ := segment
  cases right.1
  exact ⟨left, right⟩

/-- The elements of a segment can be read off its links. -/
theorem Segment.unique (left : Segment next first l none) (right : Segment next first r none) :
    l = r := by
  induction l generalizing first r with
  | nil =>
    cases r with
    | nil => rfl
    | cons q r => exact absurd (left.symm.trans right.1) (by simp)
  | cons p l ih =>
    cases r with
    | nil => exact absurd (left.1.symm.trans right) (by simp)
    | cons q r =>
      obtain ⟨begins, left⟩ := left
      obtain ⟨begins', right⟩ := right
      cases begins.symm.trans begins'
      rw [ih left right]

/-- A write to the link of its last element gives a segment another end. -/
theorem Segment.cut [DecidableEq P] (segment : Segment next first (l ++ [p]) after)
    (distinct : (l ++ [p]).Nodup) (same : ∀ q, q ≠ p → next' q = next q)
    (last : next' p = value) : Segment next' first (l ++ [p]) value := by
  rw [segment_append] at segment ⊢
  obtain ⟨middle, front, begins, _⟩ := segment
  refine ⟨middle, front.congr fun q member => same q ?_, begins, last⟩
  rintro rfl
  exact (List.nodup_append.mp distinct).2.2 q member q List.mem_cons_self rfl

end MoonInWater.Chain
