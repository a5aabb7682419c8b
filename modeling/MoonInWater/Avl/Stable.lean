import MoonInWater.Avl.Model
import MoonInWater.Lib.Fuel

/-! More fuel does not change what the functions of the tree return. -/
namespace MoonInWater.Avl
open AvlTree Fuel
variable {P : Type} {m : Mem P}

theorem sideMost_stable (side : Side) (p : P) (m : Mem P) :
    Stable fun fuel => sideMost side fuel p m := by
  refine .of_succ fun n => ?_
  induction n generalizing p with
  | zero =>
    intro a result
    contradiction
  | succ n ih =>
    intro a result
    rw [sideMost] at result ⊢
    cases child : (m.node p).child side with
    | none => simpa only [child] using result
    | some q =>
      simp only [child] at result
      exact ih q a result

variable [DecidableEq P]

omit [DecidableEq P] in
theorem addDescend_stable (cmp : P → Int) (slot : Slot P) (parent : Option P) (m : Mem P) :
    Stable fun fuel => addDescend cmp fuel slot parent m := by
  refine .of_succ fun n => ?_
  induction n generalizing slot parent with
  | zero =>
    intro a result
    contradiction
  | succ n ih =>
    intro a result
    rw [addDescend] at result ⊢
    cases here : m.slot slot with
    | none => simpa only [here] using result
    | some p =>
      simp only [here] at result
      split at result
      next above => exact (if_pos above).trans (ih _ _ a result)
      next notAbove =>
        refine (if_neg notAbove).trans ?_
        split at result
        next below => exact (if_pos below).trans (ih _ _ a result)
        next notBelow => exact (if_neg notBelow).trans result

theorem addBack_stable (p : P) (m : Mem P) : Stable fun fuel => addBack fuel p m := by
  refine .of_succ fun n => ?_
  induction n generalizing p m with
  | zero =>
    intro a result
    contradiction
  | succ n ih =>
    intro a result
    rw [addBack] at result ⊢
    cases up : (m.node p).parent with
    | none => simpa only [up] using result
    | some parent =>
      simp only [up] at result ⊢
      generalize (if (m.node parent).left = some p then _ else _) = balance at result ⊢
      split_ifs at result ⊢
      · exact result
      · exact ih _ _ a result
      · exact result
      · exact result

theorem delBack_stable (p : P) (m : Mem P) : Stable fun fuel => delBack fuel p m := by
  refine .of_succ fun n => ?_
  induction n generalizing p m with
  | zero =>
    intro a result
    contradiction
  | succ n ih =>
    intro a result
    rw [delBack] at result ⊢
    cases up : (m.node p).parent with
    | none => simpa only [up] using result
    | some parent =>
      simp only [up] at result ⊢
      generalize (if (m.node parent).left = some p then _ else _) = balance at result ⊢
      split_ifs at result ⊢
      · exact result
      · exact ih _ _ a result
      · obtain ⟨⟨m', axis⟩, turned, rest⟩ := Option.bind_eq_some_iff.mp result
        refine Option.bind_eq_some_iff.mpr ⟨⟨m', axis⟩, turned, ?_⟩
        cases axis with
        | none => exact rest
        | some axis => exact ih _ _ a rest
      · exact ih _ _ a result

theorem avlAdd2_stable (p : P) (cmp : P → Int) (m : Mem P) :
    Stable fun fuel => avlAdd2 fuel p cmp m := by
  refine (addDescend_stable cmp .root none m).bind fun found => ?_
  cases found with
  | inl place => exact (addBack_stable p _).bind fun _ => .const _
  | inr q => exact .const _

theorem avlDel2_stable (p : P) (m : Mem P) : Stable fun fuel => avlDel2 fuel p m := by
  have leaf : Stable fun fuel => delLeaf fuel p m := by
    unfold delLeaf
    refine .ite _ (.const _) ((Stable.const _).bind fun tmp => ?_)
    exact (sideMost_stable _ tmp m).bind fun tmp => .const _
  refine leaf.bind fun found => ?_
  exact (delBack_stable found.1 m).bind fun _ => .const _

omit [DecidableEq P] in
theorem avlLeftestNode_stable (avl : Option P) (m : Mem P) :
    Stable fun fuel => avlLeftestNode fuel avl m := by
  cases avl with
  | none => exact .const _
  | some p => exact (sideMost_stable .left p m).map some

end MoonInWater.Avl
