import Mathlib.Tactic.Common

/-! Blocks of cells of which some were never written, and copies of a part of one into another. -/
namespace MoonInWater.Block
variable {α : Type} {front mid rear new : List (Option α)} {i n : Nat}

/-- The part of a block from a cell on. -/
def fetch (cells : List (Option α)) (i n : Nat) : Option (List (Option α)) :=
  if i + n ≤ cells.length then some ((cells.drop i).take n) else none

/-- The block with a part of it replaced. -/
def store (cells : List (Option α)) (i : Nat) (new : List (Option α)) :
    Option (List (Option α)) :=
  if i + new.length ≤ cells.length then
    some (cells.take i ++ new ++ cells.drop (i + new.length))
  else none

theorem fetch_mid (start : i = front.length) (size : n = mid.length) :
    fetch (front ++ mid ++ rear) i n = some mid := by
  rw [fetch, if_pos (by simp [start, size])]
  simp [start, size]

theorem store_mid (start : i = front.length) (size : new.length = mid.length) :
    store (front ++ mid ++ rear) i new = some (front ++ new ++ rear) := by
  rw [store, if_pos (by simp [start, size])]
  simp [start, size]

theorem modify_mid (f : Option α → Option α) (x : Option α) (start : i = front.length) :
    (front ++ x :: rear).modify i f = front ++ f x :: rear := by
  subst start
  induction front with
  | nil => rfl
  | cons y front ih =>
    rw [List.cons_append, List.length_cons, List.modify_succ_cons, ih, List.cons_append]

/-- A value that was written. -/
def load (cells : List (Option α)) (i : Nat) : Option α := cells[i]?.bind id

theorem load_mid {values : List α} {x : α} (start : front.length ≤ i)
    (here : values[i - front.length]? = some x) :
    load (front ++ values.map some ++ rear) i = some x := by
  have less := (List.getElem?_eq_some_iff.mp here).1
  have inside : i < (front ++ values.map some).length := by
    simp
    omega
  rw [load, List.getElem?_append_left inside, List.getElem?_append_right start,
    List.getElem?_map, here]
  rfl

end MoonInWater.Block
