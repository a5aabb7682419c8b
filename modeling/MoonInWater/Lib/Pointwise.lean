import Mathlib.Data.List.Forall2

/-! Lists that are related entry by entry. -/
namespace MoonInWater.Pointwise
open List
variable {A B C : Type} {R : A → B → Prop} {l r : List A} {u : List B}

/-- Two lists side by side are related to two lists side by side. -/
theorem split (pairs : Forall₂ R (l ++ r) u) :
    ∃ left right, u = left ++ right ∧ Forall₂ R l left ∧ Forall₂ R r right := by
  induction l generalizing u with
  | nil => exact ⟨[], u, rfl, .nil, pairs⟩
  | cons a l ih =>
    cases pairs with
    | cons first rest =>
      obtain ⟨left, right, rfl, pairs, others⟩ := ih rest
      exact ⟨_, right, rfl, .cons first pairs, others⟩

theorem partner (pairs : Forall₂ R l u) {a : A} (member : a ∈ l) : ∃ b ∈ u, R a b := by
  induction pairs with
  | nil => cases member
  | cons first rest ih =>
    rcases List.mem_cons.mp member with rfl | behind
    · exact ⟨_, List.mem_cons_self, first⟩
    · obtain ⟨b, there, related⟩ := ih behind
      exact ⟨b, List.mem_cons_of_mem _ there, related⟩

/-- Related entries agree on a key. -/
theorem map_eq {f : A → C} {g : B → C} (pairs : Forall₂ R l u)
    (same : ∀ a b, R a b → f a = g b) : l.map f = u.map g := by
  induction pairs with
  | nil => rfl
  | cons first rest ih => rw [List.map_cons, List.map_cons, same _ _ first, ih]

/-- Two lists that are related to a third one are related to each other. -/
theorem join {S : A → C → Prop} {T : B → C → Prop} {w : List C} (pairs : Forall₂ R l u)
    (others : Forall₂ S l w) (related : ∀ a, ∀ b ∈ u, ∀ c, R a b → S a c → T b c) :
    Forall₂ T u w := by
  induction pairs generalizing w with
  | nil =>
    cases others
    exact .nil
  | cons first rest ih =>
    cases others with
    | cons other others =>
      refine .cons (related _ _ List.mem_cons_self _ first other) (ih others ?_)
      intro a b member
      exact related a b (List.mem_cons_of_mem _ member)

/-- A key that tells the related entries apart is on no two entries. -/
theorem keys_nodup {f : A → C} (pairs : Forall₂ R l u) (distinct : u.Nodup)
    (apart : ∀ a a', ∀ b ∈ u, ∀ b' ∈ u, R a b → R a' b' → f a = f a' → b = b') :
    (l.map f).Nodup := by
  induction pairs with
  | nil => exact .nil
  | @cons a b l u first rest ih =>
    obtain ⟨other, unique⟩ := List.nodup_cons.mp distinct
    refine List.nodup_cons.mpr ⟨?_, ih unique ?_⟩
    · intro member
      obtain ⟨a', inside, same⟩ := List.mem_map.mp member
      obtain ⟨b', there, related⟩ := partner rest inside
      have again := apart a a' b List.mem_cons_self b' (List.mem_cons_of_mem _ there) first related
        same.symm
      exact other (again ▸ there)
    · intro a a' b member b' member'
      exact apart a a' b (List.mem_cons_of_mem _ member) b' (List.mem_cons_of_mem _ member')

/-- Lists with the same keys are related if entries with the same key are. -/
theorem of_keys {f : A → C} {g : B → C} (keys : l.map f = u.map g)
    (related : ∀ a ∈ l, ∀ b ∈ u, f a = g b → R a b) : Forall₂ R l u := by
  induction l generalizing u with
  | nil =>
    obtain rfl := List.map_eq_nil_iff.mp keys.symm
    exact .nil
  | cons a l ih =>
    cases u with
    | nil => cases keys
    | cons b u =>
      obtain ⟨first, rest⟩ := List.cons_eq_cons.mp keys
      refine .cons (related a List.mem_cons_self b List.mem_cons_self first) (ih rest ?_)
      intro x member y there
      exact related x (List.mem_cons_of_mem _ member) y (List.mem_cons_of_mem _ there)

end MoonInWater.Pointwise
