import Mathlib.Data.Multiset.Bind
import Mathlib.Algebra.Order.Ring.Int

/-! Objects with a count of references: what each operation on a count keeps, when the references
that are held are known. -/
namespace MoonInWater.Counted
variable {A : Type}

/-- An object, with the number of times that it was freed. -/
structure Object (A : Type) where
  count : Int
  value : A
  frees : Nat
deriving DecidableEq

abbrev Store (A : Type) := List (Object A)

def Object.counted (by' : Int) (o : Object A) : Object A := { o with count := o.count + by' }

def Object.freed (o : Object A) : Object A := { o with frees := o.frees + 1 }

def take (s : Store A) (p : Nat) : Store A := s.modify p (Object.counted 1)

def drop (s : Store A) (p : Nat) : Store A := s.modify p (Object.counted (-1))

def free (s : Store A) (p : Nat) : Store A := s.modify p Object.freed

/-- A new object, with the first reference to it. -/
def make (s : Store A) (value : A) : Store A := s ++ [⟨1, value, 0⟩]

/-- The objects are counted by the references that are held; one that is held by none has been
freed once, or is `dying`. -/
structure Sound (s : Store A) (held dying : Multiset Nat) : Prop where
  inside : ∀ p ∈ held + dying, p < s.length
  count : ∀ p o, s[p]? = some o → o.count = (held.count p : Int)
  frees : ∀ p o, s[p]? = some o → o.frees + dying.count p = if held.count p = 0 then 1 else 0

/-- The element at `q` once the one at `p` has changed. -/
theorem modify_cases {s : List A} {f : A → A} {p q : Nat} {o' : A}
    (at' : (s.modify p f)[q]? = some o') :
    ∃ o, s[q]? = some o ∧ (p = q ∧ o' = f o ∨ p ≠ q ∧ o' = o) := by
  rw [List.getElem?_modify] at at'
  obtain ⟨o, found, same⟩ := Option.map_eq_some_iff.mp at'
  refine ⟨o, found, ?_⟩
  by_cases here : p = q
  · rw [if_pos here] at same
    exact .inl ⟨here, same.symm⟩
  · rw [if_neg here] at same
    exact .inr ⟨here, same.symm⟩

theorem modify_self {s : List A} {f : A → A} {p : Nat} {o : A}
    (at' : s[p]? = some o) : (s.modify p f)[p]? = some (f o) := by
  rw [List.getElem?_modify, at']
  exact congrArg some (if_pos rfl)

theorem modify_other {s : List A} {f : A → A} {p q : Nat} (other : p ≠ q) :
    (s.modify p f)[q]? = s[q]? := by
  rw [List.getElem?_modify]
  simp only [if_neg other, Option.map_eq_map, Option.map_id_fun', id_eq]

/-- The object at `q` once a new one has been made. -/
theorem make_cases {s : Store A} {value : A} {q : Nat} {o : Object A}
    (at' : (make s value)[q]? = some o) :
    q < s.length ∧ s[q]? = some o ∨ q = s.length ∧ o = ⟨1, value, 0⟩ := by
  by_cases less : q < s.length
  · rw [make, List.getElem?_append_left less] at at'
    exact .inl ⟨less, at'⟩
  · rw [make, List.getElem?_append_right (Nat.le_of_not_lt less), List.getElem?_singleton] at at'
    split at at'
    next last =>
      cases at'
      exact .inr ⟨by omega, rfl⟩
    next => cases at'

/-- A sum over a list has the part of each element. -/
theorem sum_modify {M : Type} [AddCommMonoid M] (w : A → M) {s : List A} {p : Nat} {o : A}
    (at' : s[p]? = some o) : ∃ rest, (s.map w).sum = w o + rest ∧
      ∀ f, ((s.modify p f).map w).sum = w (f o) + rest := by
  induction s generalizing p with
  | nil => cases at'
  | cons first s ih =>
    cases p with
    | zero =>
      cases at'
      refine ⟨(s.map w).sum, rfl, ?_⟩
      intro f
      rfl
    | succ p =>
      obtain ⟨rest, sum, changed⟩ := ih at'
      refine ⟨w first + rest, ?_, ?_⟩
      · rw [List.map_cons, List.sum_cons, sum, add_left_comm]
      · intro f
        rw [List.modify_succ_cons, List.map_cons, List.sum_cons, changed, add_left_comm]

namespace Sound
variable {s : Store A} {held dying : Multiset Nat} {p : Nat} {o : Object A}

/-- Who has a reference to an object finds it there. -/
theorem alive (sound : Sound s held dying) (has : p ∈ held) :
    ∃ o, s[p]? = some o ∧ 0 < o.count ∧ o.frees = 0 ∧ p ∉ dying := by
  have inside := sound.inside p (Multiset.mem_add.mpr (.inl has))
  have found : s[p]? = some s[p] := List.getElem?_eq_getElem inside
  have positive := Multiset.count_pos.mpr has
  have frees := sound.frees p _ found
  rw [if_neg (by omega)] at frees
  refine ⟨s[p], found, ?_, by omega, ?_⟩
  · rw [sound.count p _ found]
    exact_mod_cast positive
  · intro dies
    have := Multiset.count_pos.mpr dies
    omega

theorem take (sound : Sound s held dying) (has : p ∈ held) :
    Sound (take s p) (p ::ₘ held) dying := by
  have positive := Multiset.count_pos.mpr has
  constructor
  · intro q among
    rw [Counted.take, List.length_modify]
    rcases Multiset.mem_add.mp among with more | dies
    · rcases Multiset.mem_cons.mp more with rfl | old
      · exact sound.inside q (Multiset.mem_add.mpr (.inl has))
      · exact sound.inside q (Multiset.mem_add.mpr (.inl old))
    · exact sound.inside q (Multiset.mem_add.mpr (.inr dies))
  · intro q o' at'
    obtain ⟨o, found, ⟨rfl, rfl⟩ | ⟨other, rfl⟩⟩ := modify_cases at'
    · rw [Multiset.count_cons_self, Object.counted, sound.count p o found]
      rfl
    · rw [Multiset.count_cons_of_ne (Ne.symm other)]
      exact sound.count q o' found
  · intro q o' at'
    obtain ⟨o, found, ⟨rfl, rfl⟩ | ⟨other, rfl⟩⟩ := modify_cases at'
    · have frees := sound.frees p o found
      rw [if_neg (by omega)] at frees
      rw [Multiset.count_cons_self, if_neg (by omega)]
      exact frees
    · rw [Multiset.count_cons_of_ne (Ne.symm other)]
      exact sound.frees q o' found

/-- The last reference that is given back leaves the object to be freed. -/
theorem drop (sound : Sound s (p ::ₘ held) dying) :
    Sound (drop s p) held (if p ∈ held then dying else p ::ₘ dying) := by
  have dies : ∀ q, (if p ∈ held then dying else p ::ₘ dying).count q =
      dying.count q + if q = p ∧ p ∉ held then 1 else 0 := by
    intro q
    by_cases more : p ∈ held
    · rw [if_pos more, if_neg (fun both => both.2 more), Nat.add_zero]
    · rw [if_neg more, Multiset.count_cons]
      by_cases same : q = p
      · rw [if_pos same, if_pos ⟨same, more⟩]
      · rw [if_neg same, if_neg (fun both => same both.1)]
  constructor
  · intro q among
    rw [Counted.drop, List.length_modify]
    apply sound.inside q
    rw [Multiset.mem_add, Multiset.mem_cons]
    rcases Multiset.mem_add.mp among with old | dying'
    · exact .inl (.inr old)
    · by_cases more : p ∈ held
      · rw [if_pos more] at dying'
        exact .inr dying'
      · rw [if_neg more] at dying'
        rcases Multiset.mem_cons.mp dying' with same | old
        · exact .inl (.inl same)
        · exact .inr old
  · intro q o' at'
    obtain ⟨o, found, ⟨rfl, rfl⟩ | ⟨other, rfl⟩⟩ := modify_cases at'
    · have count := sound.count p o found
      rw [Multiset.count_cons_self] at count
      change o.count + -1 = _
      omega
    · have count := sound.count q o' found
      rwa [Multiset.count_cons_of_ne (Ne.symm other)] at count
  · intro q o' at'
    rw [dies]
    obtain ⟨o, found, ⟨rfl, rfl⟩ | ⟨other, rfl⟩⟩ := modify_cases at'
    · have frees := sound.frees p o found
      rw [Multiset.count_cons_self, if_neg (Nat.succ_ne_zero _)] at frees
      rw [Object.counted, ← Nat.add_assoc, frees, Nat.zero_add]
      by_cases more : p ∈ held
      · have positive := Multiset.count_pos.mpr more
        rw [if_neg (fun both => both.2 more), if_neg (by omega)]
      · rw [if_pos ⟨rfl, more⟩, if_pos (Multiset.count_eq_zero.mpr more)]
    · have frees := sound.frees q o' found
      rw [Multiset.count_cons_of_ne (Ne.symm other)] at frees
      rw [if_neg (fun both => other both.1.symm), Nat.add_zero]
      exact frees

theorem free (sound : Sound s held (p ::ₘ dying)) : Sound (free s p) held dying := by
  constructor
  · intro q among
    rw [Counted.free, List.length_modify]
    apply sound.inside q
    rw [Multiset.mem_add, Multiset.mem_cons]
    exact (Multiset.mem_add.mp among).imp_right .inr
  · intro q o' at'
    obtain ⟨o, found, ⟨rfl, rfl⟩ | ⟨other, rfl⟩⟩ := modify_cases at'
    · exact sound.count p o found
    · exact sound.count q o' found
  · intro q o' at'
    obtain ⟨o, found, ⟨rfl, rfl⟩ | ⟨other, rfl⟩⟩ := modify_cases at'
    · have frees := sound.frees p o found
      rw [Multiset.count_cons_self] at frees
      change o.frees + 1 + _ = _
      omega
    · have frees := sound.frees q o' found
      rwa [Multiset.count_cons_of_ne (Ne.symm other)] at frees

theorem make (sound : Sound s held dying) (value : A) :
    Sound (make s value) (s.length ::ₘ held) dying := by
  have none_held : s.length ∉ held + dying := by
    intro among
    exact absurd (sound.inside _ among) (Nat.lt_irrefl _)
  rw [Multiset.mem_add, not_or] at none_held
  obtain ⟨new_held, new_dying⟩ := none_held
  constructor
  · intro q among
    rw [Counted.make, List.length_append, List.length_singleton]
    rw [Multiset.cons_add] at among
    rcases Multiset.mem_cons.mp among with rfl | old
    · exact Nat.lt_succ_self _
    · exact Nat.lt_succ_of_lt (sound.inside q old)
  · intro q o at'
    rcases make_cases at' with ⟨less, found⟩ | ⟨rfl, rfl⟩
    · rw [Multiset.count_cons_of_ne (Nat.ne_of_lt less)]
      exact sound.count q o found
    · rw [Multiset.count_cons_self, Multiset.count_eq_zero.mpr new_held]
      rfl
  · intro q o at'
    rcases make_cases at' with ⟨less, found⟩ | ⟨rfl, rfl⟩
    · rw [Multiset.count_cons_of_ne (Nat.ne_of_lt less)]
      exact sound.frees q o found
    · rw [Multiset.count_cons_self, if_neg (Nat.succ_ne_zero _),
        Multiset.count_eq_zero.mpr new_dying]

end Sound
end MoonInWater.Counted
