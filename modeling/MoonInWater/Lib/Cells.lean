import Mathlib.Data.Multiset.ZeroCons
import Mathlib.Data.Multiset.UnionInter
import Mathlib.Data.Multiset.Bind
import Mathlib.Tactic.Common

/-! Ownership of heap cells. A heap is a total function from addresses; the cells
that a structure occupies are a multiset, and sums of multisets are separate
structures. One rule covers every write. -/
namespace MoonInWater.Cells
variable {P N : Type}

def cell (p : P) (n : N) : Multiset (P × N) := {(p, n)}

/-- The heap holds each of the cells, at distinct addresses. -/
structure Owns (h : P → N) (cells : Multiset (P × N)) : Prop where
  holds : ∀ x ∈ cells, h x.1 = x.2
  separate : (cells.map Prod.fst).Nodup

variable {h : P → N} {a b rest cells : Multiset (P × N)}

theorem Owns.left (owns : Owns h (a + b)) : Owns h a where
  holds x member := owns.holds x (Multiset.mem_add.mpr (.inl member))
  separate := by
    have separate := owns.separate
    rw [Multiset.map_add, Multiset.nodup_add] at separate
    exact separate.1

theorem Owns.right (owns : Owns h (a + b)) : Owns h b :=
  Owns.left (add_comm a b ▸ owns)

theorem Owns.reorder (owns : Owns h a) (same : a = b) : Owns h b := same ▸ owns

theorem Owns.read (owns : Owns h (cell p n + rest)) : h p = n :=
  owns.holds (p, n) (by simp [cell])

theorem Owns.fresh (owns : Owns h (cell p n + rest)) : ∀ x ∈ rest, x.1 ≠ p := by
  intro x member same
  have separate := owns.separate
  rw [cell, Multiset.map_add, Multiset.map_singleton, Multiset.singleton_add,
    Multiset.nodup_cons] at separate
  exact separate.1 (Multiset.mem_map.mpr ⟨x, member, same⟩)

theorem Owns.ne (owns : Owns h (cell p n + (cell q m + rest))) : p ≠ q := by
  intro same
  exact owns.fresh (q, m) (by simp [cell]) same.symm

/-- A write changes its cell and leaves the others as they are. -/
theorem Owns.write [DecidableEq P] (owns : Owns h (cell p n + rest)) (n' : N) :
    Owns (Function.update h p n') (cell p n' + rest) where
  holds x member := by
    rcases Multiset.mem_add.mp member with here | there
    · rw [Multiset.mem_singleton.mp here]
      exact Function.update_self ..
    · rw [Function.update_of_ne (owns.fresh x there)]
      exact owns.holds x (Multiset.mem_add.mpr (.inr there))
  separate := by
    have separate := owns.separate
    simpa only [cell, Multiset.map_add, Multiset.map_singleton] using separate

/-- Any further cell can be taken into ownership. -/
theorem Owns.extend (owns : Owns h cells) (fresh : ∀ x ∈ cells, x.1 ≠ p) :
    Owns h (cell p (h p) + cells) where
  holds x member := by
    rcases Multiset.mem_add.mp member with here | there
    · rw [Multiset.mem_singleton.mp here]
    · exact owns.holds x there
  separate := by
    rw [cell, Multiset.map_add, Multiset.map_singleton, Multiset.singleton_add,
      Multiset.nodup_cons]
    refine ⟨fun member => ?_, owns.separate⟩
    obtain ⟨x, there, same⟩ := Multiset.mem_map.mp member
    exact fresh x there same

end MoonInWater.Cells
