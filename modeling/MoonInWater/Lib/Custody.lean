import Mathlib.Data.Multiset.Count
import Mathlib.Logic.Function.Basic

/-! Resources in custody: each open one is carried by somebody under way, or has been put with one
holder, and what is not open is in no hand. -/
namespace MoonInWater.Resource
variable {R H : Type}

structure Custody (isOpen : R → Bool) (carried : Multiset R) (holds : H → Option R) : Prop where
  hands : ∀ r, isOpen r = true ↔ r ∈ carried ∨ ∃ h, holds h = some r
  nodup : carried.Nodup
  apart : ∀ {h r}, holds h = some r → r ∉ carried
  single : ∀ {h k r}, holds h = some r → holds k = some r → h = k

variable {isOpen : R → Bool} {carried : Multiset R} {holds : H → Option R} {h : H} {r : R}

theorem Custody.empty : Custody (fun _ : R => false) 0 fun _ : H => none := by
  constructor <;> simp

theorem Custody.carried_open (custody : Custody isOpen (r ::ₘ carried) holds) :
    isOpen r = true ∧ (∀ h, holds h ≠ some r) ∧ r ∉ carried := by
  refine ⟨(custody.hands r).mpr (.inl (Multiset.mem_cons_self r carried)), fun h held => ?_,
    (Multiset.nodup_cons.mp custody.nodup).1⟩
  exact custody.apart held (Multiset.mem_cons_self r carried)

theorem Custody.held_open (custody : Custody isOpen carried holds) (held : holds h = some r) :
    isOpen r = true := (custody.hands r).mpr (.inr ⟨h, held⟩)

section
variable [DecidableEq R]

/-- A closed resource is opened, and its number carried away. -/
theorem Custody.obtain (custody : Custody isOpen carried holds) (shut : isOpen r = false) :
    Custody (Function.update isOpen r true) (r ::ₘ carried) holds := by
  have nowhere : ¬ (r ∈ carried ∨ ∃ h, holds h = some r) := fun hand => by
    rw [← custody.hands, shut] at hand
    contradiction
  obtain ⟨notCarried, notHeld⟩ := not_or.mp nowhere
  constructor
  · intro q
    by_cases same : q = r
    · subst q
      simp
    · rw [Function.update_of_ne same, custody.hands, Multiset.mem_cons]
      simp [same]
  · exact Multiset.nodup_cons.mpr ⟨notCarried, custody.nodup⟩
  · intro h q held member
    rcases Multiset.mem_cons.mp member with rfl | member
    · exact notHeld ⟨h, held⟩
    · exact custody.apart held member
  · exact custody.single

theorem Custody.release (custody : Custody isOpen (r ::ₘ carried) holds) :
    Custody (Function.update isOpen r false) carried holds := by
  obtain ⟨_, notHeld, fresh⟩ := custody.carried_open
  constructor
  · intro q
    by_cases same : q = r
    · subst q
      simp [fresh, notHeld]
    · rw [Function.update_of_ne same, custody.hands, Multiset.mem_cons]
      simp [same]
  · exact (Multiset.nodup_cons.mp custody.nodup).2
  · intro h q held member
    exact custody.apart held (Multiset.mem_cons_of_mem member)
  · exact custody.single

end

variable [DecidableEq H]

theorem update_some {o : Option R} {k : H} {q : R} :
    Function.update holds h o k = some q ↔ k = h ∧ o = some q ∨ k ≠ h ∧ holds k = some q := by
  by_cases same : k = h
  · subst k
    simp
  · simp [same]

/-- What was carried is put with a holder that has nothing. -/
theorem Custody.place (custody : Custody isOpen (r ::ₘ carried) holds) (free : holds h = none) :
    Custody isOpen carried (Function.update holds h (some r)) := by
  obtain ⟨_, notHeld, fresh⟩ := custody.carried_open
  have moved : ∀ {k q}, Function.update holds h (some r) k = some q →
      k = h ∧ r = q ∨ holds k = some q := by
    intro k q held
    rcases update_some.mp held with ⟨same, value⟩ | ⟨_, held⟩
    · exact .inl ⟨same, Option.some.inj value⟩
    · exact .inr held
  constructor
  · intro q
    rw [custody.hands, Multiset.mem_cons]
    constructor
    · rintro ((rfl | member) | ⟨k, held⟩)
      · exact .inr ⟨h, Function.update_self ..⟩
      · exact .inl member
      · refine .inr ⟨k, update_some.mpr (.inr ⟨?_, held⟩)⟩
        rintro rfl
        rw [free] at held
        contradiction
    · rintro (member | ⟨k, held⟩)
      · exact .inl (.inr member)
      · rcases moved held with ⟨_, rfl⟩ | held
        · exact .inl (.inl rfl)
        · exact .inr ⟨k, held⟩
  · exact (Multiset.nodup_cons.mp custody.nodup).2
  · intro k q held member
    rcases moved held with ⟨_, rfl⟩ | held
    · exact fresh member
    · exact custody.apart held (Multiset.mem_cons_of_mem member)
  · intro k l q left right
    rcases moved left with ⟨rfl, rfl⟩ | leftHeld
    · rcases moved right with ⟨rfl, _⟩ | rightHeld
      · rfl
      · exact absurd rightHeld (notHeld l)
    · rcases moved right with ⟨rfl, rfl⟩ | rightHeld
      · exact absurd leftHeld (notHeld k)
      · exact custody.single leftHeld rightHeld

/-- What a holder has is taken from it and carried. -/
theorem Custody.take (custody : Custody isOpen carried holds) (held : holds h = some r) :
    Custody isOpen (r ::ₘ carried) (Function.update holds h none) := by
  have others : ∀ {k q}, Function.update holds h none k = some q ↔ k ≠ h ∧ holds k = some q := by
    intro k q
    simp [update_some]
  constructor
  · intro q
    rw [custody.hands, Multiset.mem_cons]
    constructor
    · rintro (member | ⟨k, also⟩)
      · exact .inl (.inr member)
      · by_cases same : k = h
        · rw [same, held] at also
          exact .inl (.inl (Option.some.inj also).symm)
        · exact .inr ⟨k, others.mpr ⟨same, also⟩⟩
    · rintro ((rfl | member) | ⟨k, also⟩)
      · exact .inr ⟨h, held⟩
      · exact .inl member
      · exact .inr ⟨k, (others.mp also).2⟩
  · exact Multiset.nodup_cons.mpr ⟨custody.apart held, custody.nodup⟩
  · intro k q also member
    obtain ⟨other, also⟩ := others.mp also
    rcases Multiset.mem_cons.mp member with rfl | member
    · exact other (custody.single also held)
    · exact custody.apart also member
  · intro k l q left right
    exact custody.single (others.mp left).2 (others.mp right).2

end MoonInWater.Resource
