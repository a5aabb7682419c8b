import Mathlib.Data.List.Rotate
import Mathlib.Tactic.Common
import Mathlib.Algebra.Order.Ring.Int

/-! Circular buffers as lists. A window is a run of cells that may go around the
end; it is a prefix of a rotation, so that what is read from its start and written
behind its end is stated without the position of the wrap. -/
namespace MoonInWater.Circular
variable {B : Type} {buf buf' bytes : List B} {i j n k : Nat}

/-- The `n` cells from `i` on. -/
def window (buf : List B) (i n : Nat) : List B := (buf.rotate i).take n

theorem length_window (fits : n ≤ buf.length) : (window buf i n).length = n := by
  rw [window, List.length_take, List.length_rotate, Nat.min_eq_left fits]

theorem window_take (le : k ≤ n) : (window buf i n).take k = window buf i k := by
  rw [window, window, List.take_take, Nat.min_eq_left le]

theorem window_mod : window buf (i % buf.length) n = window buf i n := by
  rw [window, window, List.rotate_mod]

/-- Without its first cells a window starts further on. -/
theorem window_drop (fits : n ≤ buf.length) (le : k ≤ n) :
    (window buf i n).drop k = window buf (i + k) (n - k) := by
  have whole : k ≤ (buf.rotate i).length := by
    rw [List.length_rotate]
    omega
  have short : n - k ≤ ((buf.rotate i).drop k).length := by
    rw [List.length_drop, List.length_rotate]
    omega
  rw [window, window, ← List.rotate_rotate, List.rotate_eq_drop_append_take whole,
    List.take_append_of_le_length short, List.drop_take]

/-- A window that ends before the buffer does is one piece. -/
theorem window_straight (fits : i + n ≤ buf.length) : window buf i n = (buf.drop i).take n := by
  have short : n ≤ (buf.drop i).length := by
    rw [List.length_drop]
    omega
  rw [window, List.rotate_eq_drop_append_take (by omega), List.take_append_of_le_length short]

/-- A window around the end is two pieces. -/
theorem window_wrapped (inside : i ≤ buf.length) (around : buf.length ≤ i + n)
    (fits : n ≤ buf.length) :
    window buf i n = buf.drop i ++ buf.take (i + n - buf.length) := by
  rw [window, List.rotate_eq_drop_append_take inside, List.take_append,
    List.take_of_length_le (by rw [List.length_drop]; omega), List.length_drop, List.take_take]
  congr 2
  omega

/-- The buffer with `bytes` over the cells from `i` on. -/
def overwrite (buf : List B) (i : Nat) (bytes : List B) : List B :=
  buf.take i ++ bytes ++ buf.drop (i + bytes.length)

theorem length_overwrite (fits : i + bytes.length ≤ buf.length) :
    (overwrite buf i bytes).length = buf.length := by
  simp only [overwrite, List.length_append, List.length_take, List.length_drop]
  omega

/-- Seen from `i`, the buffer holds the bytes and then what was behind them. -/
def Wrote (buf : List B) (i : Nat) (bytes buf' : List B) : Prop :=
  buf'.length = buf.length ∧ buf'.rotate i = bytes ++ (buf.rotate i).drop bytes.length

theorem wrote_straight (fits : i + bytes.length ≤ buf.length) :
    Wrote buf i bytes (overwrite buf i bytes) := by
  refine ⟨length_overwrite fits, ?_⟩
  have inside : i ≤ (overwrite buf i bytes).length := by
    rw [length_overwrite fits]
    omega
  have front : (buf.take i).length = i := by
    rw [List.length_take]
    omega
  have short : bytes.length ≤ (buf.drop i).length := by
    rw [List.length_drop]
    omega
  rw [List.rotate_eq_drop_append_take inside, List.rotate_eq_drop_append_take (by omega),
    List.drop_append_of_le_length short, List.drop_drop, overwrite, List.append_assoc]
  rw [List.drop_left' front, List.take_left' front, List.append_assoc]

theorem wrote_wrapped {front back : List B} (atEnd : i + front.length = buf.length)
    (fits : back.length ≤ i) :
    Wrote buf i (front ++ back) (overwrite (overwrite buf i front) 0 back) := by
  have first : (overwrite buf i front).length = buf.length := length_overwrite atEnd.le
  have second : (overwrite (overwrite buf i front) 0 back).length = buf.length := by
    rw [length_overwrite (by omega), first]
  refine ⟨second, ?_⟩
  have start : (buf.take i).length = i := by
    rw [List.length_take]
    omega
  have shape : overwrite (overwrite buf i front) 0 back =
      (back ++ (buf.take i).drop back.length) ++ front := by
    rw [overwrite, overwrite, List.drop_eq_nil_of_le atEnd.ge, List.append_nil, List.take_zero,
      List.nil_append, Nat.zero_add, List.drop_append_of_le_length (by omega), List.append_assoc]
  have length : (back ++ (buf.take i).drop back.length).length = i := by
    rw [List.length_append, List.length_drop]
    omega
  have rest : (buf.rotate i).drop (front ++ back).length = (buf.take i).drop back.length := by
    rw [List.rotate_eq_drop_append_take (by omega), List.length_append, List.drop_append,
      List.drop_eq_nil_of_le (by rw [List.length_drop]; omega), List.nil_append, List.length_drop]
    congr 1
    omega
  rw [rest, List.rotate_eq_drop_append_take (by rw [second]; omega), shape,
    List.drop_left' length, List.take_left' length, List.append_assoc]

/-- What is written behind a window extends it. -/
theorem Wrote.window (wrote : Wrote buf j bytes buf') (here : j % buf.length = (i + n) % buf.length)
    (fits : n + bytes.length ≤ buf.length) :
    window buf' i (n + bytes.length) = window buf i n ++ bytes := by
  obtain ⟨length, rotated⟩ := wrote
  have behind : buf.rotate j = (buf.rotate i).drop n ++ (buf.rotate i).take n := by
    rw [← List.rotate_mod, here, List.rotate_mod, ← List.rotate_rotate,
      List.rotate_eq_drop_append_take (by rw [List.length_rotate]; omega)]
  have room : bytes.length ≤ ((buf.rotate i).drop n).length := by
    rw [List.length_drop, List.length_rotate]
    omega
  rw [behind, List.drop_append_of_le_length room, ← List.append_assoc] at rotated
  have turn : buf'.rotate i = (buf'.rotate j).rotate (buf.length - n) := by
    rw [List.rotate_rotate, ← List.rotate_mod, ← List.rotate_mod buf' (j + _), length,
      Nat.add_mod, here, ← Nat.add_mod, Nat.add_assoc, Nat.add_sub_cancel' (by omega),
      Nat.add_mod_right]
  have split : (bytes ++ ((buf.rotate i).drop n).drop bytes.length).length = buf.length - n := by
    rw [List.length_append, List.length_drop, List.length_drop, List.length_rotate]
    omega
  rw [Circular.window, Circular.window, turn, rotated, ← split, List.rotate_append_length_eq,
    ← List.append_assoc]
  have filled : ((buf.rotate i).take n ++ bytes).length = n + bytes.length := by
    rw [List.length_append, List.length_take, List.length_rotate]
    omega
  exact List.take_left' filled

end MoonInWater.Circular
