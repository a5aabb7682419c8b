import Mathlib.Order.Defs.LinearOrder
import Mathlib.Data.List.Find
import Mathlib.Data.List.Induction
import Mathlib.Data.List.Nodup

/-! The last element of a list whose key is not above a given one. In a list whose keys ascend it
is the element of the greatest such key. -/
namespace MoonInWater.Floor
variable {A C K : Type} [LinearOrder K]

def floor (key : A → K) (l : List A) (k : K) : Option A :=
  l.reverse.find? fun x => key x ≤ k

section
variable {key : A → K} {l : List A} {k : K} {x y : A}

theorem floor_concat (l : List A) (x : A) :
    floor key (l ++ [x]) k = if key x ≤ k then some x else floor key l k := by
  unfold floor
  rw [List.reverse_concat, List.find?_cons]
  by_cases under : key x ≤ k
  · rw [if_pos under, decide_eq_true under]
  · rw [if_neg under, decide_eq_false under]

theorem floor_some (found : floor key l k = some x) : x ∈ l ∧ key x ≤ k := by
  constructor
  · exact List.mem_reverse.mp (List.mem_of_find?_eq_some found)
  · simpa using List.find?_some found

theorem floor_none : floor key l k = none ↔ ∀ x ∈ l, k < key x := by
  simp [floor]

/-- Where the keys ascend, no element up to the given key has a greater one. -/
theorem floor_greatest (order : l.Pairwise fun x y => key x < key y)
    (found : floor key l k = some x) : ∀ y ∈ l, key y ≤ k → key y ≤ key x := by
  induction l using List.reverseRecOn with
  | nil => simp
  | append_singleton l z ih =>
    rw [List.pairwise_append] at order
    obtain ⟨order, _, last⟩ := order
    rw [floor_concat] at found
    intro y member under
    rcases List.mem_append.mp member with early | late
    · split at found
      · cases found
        exact le_of_lt (last y early _ (List.mem_singleton.mpr rfl))
      · exact ih order found y early under
    · rw [List.mem_singleton.mp late] at under ⊢
      rw [if_pos under] at found
      cases found
      exact le_rfl

theorem floor_eq (order : l.Pairwise fun x y => key x < key y) (member : x ∈ l)
    (under : key x ≤ k) (greatest : ∀ y ∈ l, key y ≤ k → key y ≤ key x) :
    floor key l k = some x := by
  cases found : floor key l k with
  | none => exact absurd under (not_le_of_gt (floor_none.mp found x member))
  | some y =>
    obtain ⟨inside, low⟩ := floor_some found
    have same : key y = key x :=
      le_antisymm (greatest y inside low) (floor_greatest order found x member under)
    have distinct : (l.map key).Nodup := List.pairwise_map.mpr (order.imp fun less => ne_of_lt less)
    exact congrArg some (List.inj_on_of_nodup_map distinct inside member same)

/-- A list of what some places hold, whose keys are those of the places. -/
theorem floor_filterMap {f : C → Option A} {key' : C → K} {l : List C}
    (holds : ∀ c ∈ l, ∃ x, f c = some x ∧ key x = key' c) :
    floor key (l.filterMap f) k = (floor key' l k).bind f := by
  induction l using List.reverseRecOn with
  | nil => rfl
  | append_singleton l c ih =>
    obtain ⟨x, here, same⟩ := holds c (by simp)
    have rest := ih fun c member => holds c (List.mem_append_left _ member)
    rw [List.filterMap_append, List.filterMap_cons_some here, List.filterMap_nil, floor_concat,
      floor_concat, same, rest]
    split
    · exact here.symm
    · rfl

theorem floor_map {f : C → A} {key' : C → K} {l : List C}
    (same : ∀ c ∈ l, key (f c) = key' c) : floor key (l.map f) k = (floor key' l k).map f := by
  rw [← List.filterMap_eq_map, Option.map_eq_bind]
  exact floor_filterMap fun c member => ⟨f c, rfl, same c member⟩

end
end MoonInWater.Floor
