import MoonInWater.Common.Interface

/-! The look-up of an interface is exact, as long as each hub behind the first one still has at its
start how far its bottom ends from there. -/
namespace MoonInWater.Common.Interface
open Fuel Chain
variable {O : Type}

section names
variable {w k : Nat} {name other : List Char}

theorem interfaceName_length (name : List Char) :
    (interfaceName name).length = name.length + 15 := by
  rw [interfaceName, List.length_append]
  rfl

/-- COMPARE_LEN covers a name, and stays inside of its padding. -/
theorem compareLen_bounds (word : w = 2 ^ (k + 1)) (name : List Char) :
    name.length ≤ compareLen w name ∧ compareLen w name ≤ (interfaceName name).length := by
  rw [compareLen, interfaceName_length]
  by_cases small : w ≤ 16
  · rw [if_pos small]
    have few : k < 4 := by
      by_contra many
      have large : 2 ^ 5 ≤ 2 ^ (k + 1) := Nat.pow_le_pow_right (by decide) (by omega)
      omega
    have cases : k = 0 ∨ k = 1 ∨ k = 2 ∨ k = 3 := by omega
    subst w
    rcases cases with rfl | rfl | rfl | rfl <;> omega
  · rw [if_neg small]
    omega

theorem memcmpEq_iff (covers : name.length ≤ compareLen w name)
    (within : compareLen w name ≤ (interfaceName name).length) (same : other.length = name.length) :
    memcmpEq (interfaceName other) (interfaceName name) (compareLen w name) =
      some (decide (other = name)) := by
  have within' : compareLen w name ≤ (interfaceName other).length := by
    rw [interfaceName_length, same, ← interfaceName_length]
    exact within
  rw [memcmpEq, if_pos ⟨within', within⟩]
  congr 1
  rw [decide_eq_decide]
  constructor
  · intro equal
    have front := congrArg (List.take name.length) equal
    rw [List.take_take, List.take_take, Nat.min_eq_left covers] at front
    rw [interfaceName, interfaceName, List.take_left] at front
    rw [← same, List.take_left] at front
    exact front
  · rintro rfl
    rfl

end names

/-- What an element registers: a name, and where the interface lies. -/
abbrev Entry := Option (List Char × Int)

/-- The element at `place` is one for the entry. -/
def InterElem.Holds (x : InterElem) (place : Int) : Entry → Prop
  | none => x.nameLen = 0
  | some (name, at') => x.nameLen = (interfaceName name).length ∧
      x.name = some (interfaceName name) ∧ place - x.offset = at'

def lookup (name : List Char) (l : List Entry) : Option Int :=
  l.findSome? fun entry => entry.bind fun other =>
    if other.1 = name then some other.2 else none

section loop
variable {w k : Nat} {e : Entity O} {name : List Char} {place : Int}

theorem named_spec (word : w = 2 ^ (k + 1)) {x : InterElem} {entry : Entry}
    (holds : x.Holds place entry) :
    x.named w name = some (entry.any fun other => decide (other.1 = name)) := by
  obtain ⟨covers, within⟩ := compareLen_bounds word name
  cases entry with
  | none =>
    have empty : x.nameLen = 0 := holds
    rw [InterElem.named, if_pos]
    · rfl
    · rw [empty, interfaceName_length]
      omega
  | some other =>
    obtain ⟨other, there⟩ := other
    obtain ⟨len, string, _⟩ := holds
    rw [InterElem.named, len, string]
    by_cases same : other.length = name.length
    · have equal : (interfaceName other).length = (interfaceName name).length := by
        rw [interfaceName_length, interfaceName_length, same]
      rw [if_neg (by omega)]
      exact memcmpEq_iff covers within same
    · have differs : ¬ other = name := fun equal => same (congrArg List.length equal)
      rw [if_pos]
      · simp [differs]
      · rw [interfaceName_length, interfaceName_length]
        omega

end loop

section hubs
variable {w k : Nat}

/-- The entries of interfaces that are got one after the other from `place` on. -/
def placed : Int → List IType → List Entry
  | _, [] => []
  | place, i :: l => some (i.name, place) :: placed (place + i.size) l

/-- The entries of a hub, in the order in which the loop meets them. -/
def Hub.entries (w : Nat) : Hub O → List Entry
  | .dynamic h => placed 0 h.interfaces
  | .static h => (h.elems.map fun x => x.map fun (i : Fin h.declared.length) =>
      ((h.declared.get i).name, h.interfaceAt w i)).reverse

/-- Where the bottom of a hub ends, and its data begins. -/
def Hub.pData (w : Nat) (h : Hub O) : Int := (h.entity w).bottomAt + bottomSize w

/-- The head of a hub still tells how far its bottom ends from there. -/
def Hub.Intact (w : Nat) (h : Hub O) : Prop := (h.entity w).len = h.pData w

/-- The head of a static hub counts its user data, which stand behind its bottom. -/
theorem static_intact_iff (h : StaticHub O) : (Hub.static h).Intact w ↔ h.userLen = 0 := by
  change h.bottomAt w + bottomSize w + h.userLen = h.bottomAt w + bottomSize w ↔ _
  omega

/-- The head of an allocated hub stays as it is until an interface is got. -/
theorem dynamic_intact (h : DynamicHub O) (none' : h.interfaces = []) :
    (Hub.dynamic h).Intact w := by
  obtain ⟨interfaces, interfacesLen, interfaceNum, next, room, slots⟩ := h
  cases none'
  exact (Int.sub_add_cancel _ (bottomSize w)).symm

end hubs

section chain
variable {w k : Nat} {hubs : O → Hub O} {name : List Char} {o next : O}

/-- An entry of the name in the nearest hub that has one, and nothing if no hub has it. -/
def Nearest (w : Nat) (hubs : O → Hub O) (name : List Char) : List O → Option (O × Int) → Prop
  | [], r => r = none
  | o :: l, r => (∃ place, some (name, place) ∈ (hubs o).entries w ∧ r = some (o, place)) ∨
      (∀ place, some (name, place) ∉ (hubs o).entries w) ∧ Nearest w hubs name l r

/-- FIND_INTERFACE from a place at which a hub's bottom ends. -/
def find (w : Nat) (hubs : O → Hub O) (name : List Char) (o : O) (place : Int) (fuel : Nat) :
    Option (Option (O × Int)) :=
  findInterface w (fun o => (hubs o).entity w) name fuel o place

/-- The look-up is exact from the data of the hub `first`, in front of the hubs `behind`. -/
structure Exact (w : Nat) (hubs : O → Hub O) (first : O) (behind : List O) : Prop where
  covers : ∀ name, name.length ≤ compareLen w name ∧
    compareLen w name ≤ (interfaceName name).length
  finds : ∀ name, ∃ r, Returns (find w hubs name first ((hubs first).pData w)) r ∧
    Nearest w hubs name (first :: behind) r

end chain

end MoonInWater.Common.Interface
