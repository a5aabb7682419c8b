import MoonInWater.Lib.CInt

/-! A word that counts users in units of sixteen above a nibble with close marks.
Whoever gives back the last reference of a closed word, or closes an unused
word, owes one call. The call is owed exactly once, whatever the schedule. -/
namespace MoonInWater.RefWord
open CInt

/-- What one thread's step can touch: the word, the thread's references, the
calls it owes, and the calls made so far. -/
structure View where
  word : Int
  held : Nat
  owes : Nat
  made : Nat

inductive Effect (closed : Int → Prop) : View → View → Prop where
  | move : Effect closed ⟨w, h, k, r⟩ ⟨w, h, k, r⟩
  | flag : w' / 16 = w / 16 → (closed w' ↔ closed w) → Effect closed ⟨w, h, k, r⟩ ⟨w', h, k, r⟩
  | grant : ¬ closed w → Effect closed ⟨w, h, k, r⟩ ⟨i32 (w + 16), h + 1, k, r⟩
  | giveBack : i32 (w - 16) = w' → k' ≤ 1 → (k' = 1 ↔ 0 ≤ w' ∧ w' < 16 ∧ closed w') →
      Effect closed ⟨w, h + 1, 0, r⟩ ⟨w', h, k', r⟩
  | mark : ¬ closed w → closed w' → w' / 16 = w / 16 → k' ≤ 1 → (k' = 1 ↔ w < 16) →
      Effect closed ⟨w, h, 0, r⟩ ⟨w', h, k', r⟩
  | run : Effect closed ⟨w, h, 1, r⟩ ⟨w, h, 0, r + 1⟩

theorem Effect.same {closed : Int → Prop} {v v' : View} (word : v'.word = v.word)
    (held : v'.held = v.held) (owes : v'.owes = v.owes) (made : v'.made = v.made) :
    Effect closed v v' := by
  obtain ⟨w, h, k, r⟩ := v
  obtain ⟨w', h', k', r'⟩ := v'
  cases word
  cases held
  cases owes
  cases made
  exact .move

/-- The word counts its users, and one call is owed or made once the word is
closed and unused, none before. -/
structure Settled (closed : Int → Prop) (word : Int) (users calls : Nat) : Prop where
  counts : Counts word users
  due : closed word → users = 0 → calls = 1
  early : ¬ (closed word ∧ users = 0) → calls = 0

variable {closed : Int → Prop}

theorem Settled.calls_le (settled : Settled closed word users calls) : calls ≤ 1 := by
  by_cases unused : closed word ∧ users = 0
  · exact Nat.le_of_eq (settled.due unused.1 unused.2)
  · have none := settled.early unused
    omega

theorem Settled.unused (settled : Settled closed word users calls) (some : 0 < calls) :
    closed word ∧ users = 0 := by
  by_contra used
  have none := settled.early used
  omega

/-- The rule of the protocol: a step of one thread keeps the sums over all
threads settled, and a closed word closed. -/
theorem Effect.settled (shift : ∀ w, closed (w + 16) ↔ closed w) (effect : Effect closed v v')
    (settled : Settled closed v.word (v.held + rest) (v.made + (v.owes + pending)))
    (room : v'.held + rest < 2 ^ 27) :
    Settled closed v'.word (v'.held + rest) (v'.made + (v'.owes + pending)) ∧
      (closed v.word → closed v'.word) := by
  obtain ⟨⟨count, bound⟩, due, early⟩ := settled
  cases effect with
  | move => exact ⟨⟨⟨count, bound⟩, due, early⟩, id⟩
  | flag same kept =>
    exact ⟨⟨⟨same.trans count, bound⟩, fun c => due (kept.mp c),
      fun c => early (by rwa [kept] at c)⟩, kept.mpr⟩
  | @grant w h k r opened =>
    have nobody := early fun c => opened c.1
    simp only at count bound room nobody ⊢
    have exact : i32 (w + 16) = w + 16 := i32_eq (by omega) (by omega)
    rw [exact]
    exact ⟨⟨⟨by omega, room⟩, fun c => absurd ((shift w).mp c) opened, fun _ => nobody⟩,
      fun c => absurd c opened⟩
  | @giveBack w w' k' h r sub small owed =>
    have busy := early (fun c => by simp only at c; omega)
    simp only at count bound busy ⊢
    have exact : i32 (w - 16) = w - 16 := i32_eq (by omega) (by omega)
    have kept : closed w' ↔ closed w := by rw [← sub, exact, ← shift (w - 16), Int.sub_add_cancel]
    have value : w' = w - 16 := sub.symm.trans exact
    refine ⟨⟨⟨by omega, by omega⟩, fun c none => ?_, fun used => ?_⟩, kept.mpr⟩
    · have one := owed.mpr ⟨by omega, by omega, c⟩
      omega
    · have notOne : k' ≠ 1 := fun one => used ⟨(owed.mp one).2.2, by have := owed.mp one; omega⟩
      omega
  | @mark w w' k' h r opened marked same small owed =>
    have nobody := early fun c => opened c.1
    simp only at count bound nobody ⊢
    refine ⟨⟨⟨same.trans count, bound⟩, fun _ none => ?_, fun used => ?_⟩, fun c => absurd c opened⟩
    · have one := owed.mpr (by omega)
      omega
    · have notOne : k' ≠ 1 := fun one => used ⟨marked, by have := owed.mp one; omega⟩
      omega
  | run =>
    refine ⟨⟨⟨count, bound⟩, fun c none => ?_, fun used => ?_⟩, id⟩
    · have one := due c none
      simp only at one ⊢
      omega
    · have none := early used
      simp only at none
      omega

end MoonInWater.RefWord
