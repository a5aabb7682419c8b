import MoonInWater.Sync.PointNum

/-! complete_var_type resolves the first field of each type, and no other one. -/
namespace MoonInWater.Sync.VarType

/-- A struct table before complete_var_type: find_type finds the types of the fields, none of which
contains itself, and the numbers of pointers are preset for the basic types alone. -/
structure WellFormed (regex : String → String → Match) (head : StructAll) : Prop where
  found : ∀ one ∈ head, ∀ v ∈ one.vars, 0 ≤ findType regex head v.type
  acyclic : ∃ rank : Int → Nat, ∀ t one, getStructOne head t = some one → ∀ v ∈ one.vars,
    rank (findType regex head v.type) < rank t
  preset : ∀ one ∈ head, one.vars = [] ↔ 0 ≤ one.pointNum

/-- The type of a field by its type string. -/
def typeOf (regex : String → String → Match) (head : StructAll) (v : Var) : Int :=
  findType regex head v.type

/-- What complete_var_type is to make of a table. -/
structure Resolved (regex : String → String → Match) (head head' : StructAll) : Prop where
  length : head'.length = head.length
  declared : ∀ (t : Nat) (one one' : StructOne), head[t]? = some one → head'[t]? = some one' →
    one'.vars.map (fun v => (v.type, v.len)) = one.vars.map fun v => (v.type, v.len)
  typeNum : ∀ one' ∈ head', ∀ v ∈ one'.vars, v.typeNum = findType regex head v.type
  pointNum : ∀ t one', getStructOne head' t = some one' →
    TypeLeaves (typeOf regex head) head t one'.pointNum
  pointAddr : ∀ t one', getStructOne head' t = some one' → ∀ j v, one'.vars[j]? = some v →
    Leaves (typeOf regex head) head ((one'.fields (typeOf regex head)).take j) v.pointAddr

/-- The call returns and resolves the table. -/
def Resolves (regex : String → String → Match) (head : StructAll) : Prop :=
  ∃ fuel head', completeVarType regex fuel head = some head' ∧ Resolved regex head head'

/-- The fields behind the first one of each type have their types before the call. -/
def LaterPreset (regex : String → String → Match) (head : StructAll) : Prop :=
  ∀ one ∈ head, ∀ v ∈ one.vars.tail, v.typeNum = findType regex head v.type

section
variable {regex : String → String → Match} {head head' : StructAll} {one : StructOne} {fuel : Nat}

theorem completeVarType_eq (wf : WellFormed regex head) (fuel : Nat) :
    completeVarType regex fuel head =
      countOnes fuel head.length (head.map (resolveFirst (findType regex head))) := by
  rw [completeVarType, resolve_eq wf.found, if_pos rfl]

theorem resolveFirst_tail (typeOf : String → Int) (one : StructOne) :
    (resolveFirst typeOf one).vars.tail = one.vars.tail := by
  rw [resolveFirst]
  cases one.vars with
  | nil => rfl
  | cons v vars => rfl

/-- The types of the later fields are left as they were. -/
theorem later_kept (wf : WellFormed regex head) (resolves : Resolves regex head) :
    LaterPreset regex head := by
  obtain ⟨fuel, head', ran, resolved⟩ := resolves
  rw [completeVarType_eq wf] at ran
  have same := countOnes_uncounted ran
  rw [List.map_map] at same
  intro one member v later
  obtain ⟨t, here⟩ := List.mem_iff_getElem?.mp member
  have both := congrArg (fun head => head[t]?) same
  simp only [List.getElem?_map, here, Option.map_some] at both
  obtain ⟨one', here', same'⟩ := Option.map_eq_some_iff.mp both
  have tails := congrArg (fun one => one.vars.tail) same'
  simp only [StructOne.uncounted, Function.comp_apply, ← List.map_tail, resolveFirst_tail] at tails
  have found : { v with pointAddr := 0 } ∈
      one'.vars.tail.map fun v => { v with pointAddr := 0 } := by
    rw [tails]
    exact List.mem_map.mpr ⟨v, later, rfl⟩
  obtain ⟨v', later', equal⟩ := List.mem_map.mp found
  have typed := resolved.typeNum one' (List.mem_of_getElem? here') v' (List.mem_of_mem_tail later')
  have type := congrArg Var.type equal
  have typeNum := congrArg Var.typeNum equal
  dsimp only at type typeNum
  rw [← typeNum, typed, type]

/-- With the later fields preset the first loop resolves each field. -/
theorem resolveFirst_typed (preset : LaterPreset regex head) (member : one ∈ head) :
    ∀ v ∈ (resolveFirst (findType regex head) one).vars,
      v.typeNum = findType regex head v.type := by
  have later := preset one member
  rw [resolveFirst]
  cases fields : one.vars with
  | nil =>
    intro v found
    cases found
  | cons first vars =>
    rw [fields] at later
    intro v found
    rcases List.mem_cons.mp found with rfl | found
    · rfl
    · exact later v found

theorem resolveFirst_declared (typeOf : String → Int) (one : StructOne) :
    (resolveFirst typeOf one).vars.map (fun v => (v.type, v.len)) =
      one.vars.map fun v => (v.type, v.len) := by
  rw [resolveFirst]
  cases one.vars with
  | nil => rfl
  | cons v vars => rfl

/-- The fields of a resolved type are those of its type strings. -/
theorem fields_typed {one' : StructOne}
    (typed : ∀ v ∈ one'.vars, v.typeNum = findType regex head v.type)
    (declared : one'.vars.map (fun v => (v.type, v.len)) = one.vars.map fun v => (v.type, v.len)) :
    one'.fields Var.typeNum = one.fields (typeOf regex head) := by
  have named := congrArg (List.map fun w : String × Nat => (findType regex head w.1, w.2)) declared
  rw [List.map_map, List.map_map] at named
  have own : one'.fields Var.typeNum =
      one'.vars.map fun v => (findType regex head v.type, v.len) := by
    apply List.map_congr_left
    intro v member
    rw [typed v member]
  exact own.trans named

theorem resolveFirst_fields (preset : LaterPreset regex head) (member : one ∈ head) :
    (resolveFirst (findType regex head) one).fields Var.typeNum = one.fields (typeOf regex head) :=
  fields_typed (resolveFirst_typed preset member) (resolveFirst_declared _ one)

theorem getStructOne_map {f : StructOne → StructOne} {t : Int} :
    getStructOne (head.map f) t = (getStructOne head t).map f := by
  by_cases negative : t < 0
  · rw [getStructOne, getStructOne, if_pos negative, if_pos negative]
    rfl
  · rw [getStructOne, getStructOne, if_neg negative, if_neg negative, List.getElem?_map]

theorem getStructOne_mem {t : Int} (here : getStructOne head t = some one) : one ∈ head :=
  List.mem_of_getElem? (getStructOne_eq_some.mp here).2

/-- The table after the first loop. -/
theorem resolved_uncounted (wf : WellFormed regex head) (preset : LaterPreset regex head) :
    ∃ rank, Uncounted rank (head.map (resolveFirst (findType regex head))) := by
  obtain ⟨rank, acyclic⟩ := wf.acyclic
  refine ⟨rank, ?_, ?_⟩
  · intro t one' here v member
    rw [getStructOne_map] at here
    obtain ⟨one, found, made⟩ := Option.map_eq_some_iff.mp here
    subst made
    have typed := resolveFirst_typed preset (getStructOne_mem found) v member
    have field : (v.type, v.len) ∈ one.vars.map fun v => (v.type, v.len) := by
      rw [← resolveFirst_declared (findType regex head) one]
      exact List.mem_map.mpr ⟨v, member, rfl⟩
    obtain ⟨w, member', same⟩ := List.mem_map.mp field
    have type : w.type = v.type := (Prod.mk.inj same).1
    have named := wf.found one (getStructOne_mem found) w member'
    have below := acyclic t one found w member'
    rw [type] at named
    rw [type, ← typed] at below
    obtain ⟨inner, there⟩ := findType_valid named
    rw [← typed] at there
    refine ⟨resolveFirst (findType regex head) inner, ?_, below⟩
    rw [getStructOne_map, there]
    rfl
  · intro t one' here
    rw [getStructOne_map] at here
    obtain ⟨one, found, made⟩ := Option.map_eq_some_iff.mp here
    subst made
    have basic := wf.preset one (getStructOne_mem found)
    have vars : (resolveFirst (findType regex head) one).vars = [] ↔ one.vars = [] := by
      rw [← List.length_eq_zero_iff, ← List.length_eq_zero_iff]
      exact iff_of_eq (congrArg (· = 0) (List.length_modifyHead ..))
    exact vars.trans basic

/-- The pointers of the resolved table are those of the table by its type strings. -/
theorem leaves_resolved (preset : LaterPreset regex head) {fields : List (Int × Nat)} {n : Int}
    (leaves : Leaves Var.typeNum (head.map (resolveFirst (findType regex head))) fields n) :
    Leaves (typeOf regex head) head fields n := by
  induction leaves with
  | nil => exact .nil
  | basic here none' rest ih =>
    rw [getStructOne_map] at here
    obtain ⟨one, found, made⟩ := Option.map_eq_some_iff.mp here
    subst made
    have basic : one.vars = [] := by
      apply List.eq_nil_of_length_eq_zero
      rw [← List.length_modifyHead (l := one.vars)]
      exact congrArg List.length none'
    change Leaves _ _ _ (_ * one.pointNum + _)
    exact .basic found basic ih
  | struct here some' inner rest inner_ih ih =>
    rw [getStructOne_map] at here
    obtain ⟨one, found, made⟩ := Option.map_eq_some_iff.mp here
    subst made
    rw [resolveFirst_fields preset (getStructOne_mem found)] at inner_ih
    refine .struct found ?_ inner_ih ih
    intro basic
    apply some'
    rw [resolveFirst, basic]
    rfl

/-- With the later fields preset the call resolves the table. -/
theorem preset_resolves (wf : WellFormed regex head) (preset : LaterPreset regex head) :
    Resolves regex head := by
  obtain ⟨rank, uncounted⟩ := resolved_uncounted wf preset
  obtain ⟨fuel, head', ran, same, counted⟩ := count_spec uncounted
  rw [List.length_map] at ran
  -- a type of the new table, with the one it comes from
  have before : ∀ (t : Nat) one', head'[t]? = some one' → ∃ one, head[t]? = some one ∧
      one'.uncounted = (resolveFirst (findType regex head) one).uncounted := by
    intro t one' here
    obtain ⟨one₀, found, same⟩ := uncounted_getElem? same here
    rw [List.getElem?_map] at found
    obtain ⟨one, found, made⟩ := Option.map_eq_some_iff.mp found
    exact ⟨one, found, made ▸ same⟩
  have typed : ∀ one' ∈ head', ∀ v ∈ one'.vars, v.typeNum = findType regex head v.type := by
    intro one' member v found
    obtain ⟨t, here⟩ := List.mem_iff_getElem?.mp member
    obtain ⟨one, here₀, same⟩ := before t one' here
    have vars := congrArg (fun one => one.vars.map fun v => (v.typeNum, v.type)) same
    simp only [StructOne.uncounted, List.map_map, Function.comp_def] at vars
    have field : (v.typeNum, v.type) ∈ one'.vars.map fun v => (v.typeNum, v.type) :=
      List.mem_map.mpr ⟨v, found, rfl⟩
    rw [vars] at field
    obtain ⟨w, member', equal⟩ := List.mem_map.mp field
    obtain ⟨typeNum, type⟩ := Prod.mk.inj equal
    rw [← typeNum, ← type]
    exact resolveFirst_typed preset (List.mem_of_getElem? here₀) w member'
  have own : ∀ one' ∈ head', one'.fields Var.typeNum = one'.fields (typeOf regex head) :=
    fun one' member => fields_typed (typed one' member) rfl
  refine ⟨fuel, head', (completeVarType_eq wf fuel).trans ran, ?_⟩
  constructor
  · have length := congrArg List.length same
    simpa only [List.length_map] using length
  · intro t one one' here here'
    obtain ⟨one₀, here₀, same⟩ := before t one' here'
    cases here.symm.trans here₀
    rw [← resolveFirst_declared (findType regex head) one]
    have vars := congrArg (fun one => one.vars.map fun v => (v.type, v.len)) same
    simpa only [StructOne.uncounted, List.map_map, Function.comp_def] using vars
  · exact typed
  · intro t one' here
    exact leaves_resolved preset (counted t one' here).pointNum
  · intro t one' here j v found
    rw [← own one' (getStructOne_mem here)]
    exact leaves_resolved preset ((counted t one' here).pointAddr j v found)

end

/-- A pattern without special characters that matches itself alone. -/
def literal (name type : String) : Match := if name = type then .found else .noMatch

/-- Two integer types and a type with two fields of one of them, in a buffer that was zeroed. -/
def pairOf (type : String) : StructAll :=
  [⟨"char", 1, 0, some .signedIntCopy, []⟩, ⟨"int", 4, 0, some .signedIntCopy, []⟩,
    ⟨"pair_s", 8, -1, none, [⟨type, 0, 4, 4, 1, 0, 0⟩, ⟨type, 0, 4, 4, 1, 4, 0⟩]⟩]

theorem acyclic_of_below {regex : String → String → Match} {head : StructAll}
    (below : ∀ i (inside : i < head.length), ∀ v ∈ head[i].vars,
      (findType regex head v.type).toNat < i) :
    ∃ rank : Int → Nat, ∀ t one, getStructOne head t = some one → ∀ v ∈ one.vars,
      rank (findType regex head v.type) < rank t := by
  refine ⟨Int.toNat, fun t one here v member => ?_⟩
  obtain ⟨inside, same⟩ := List.getElem?_eq_some_iff.mp (getStructOne_eq_some.mp here).2
  subst same
  exact below t.toNat inside v member

theorem pairOf_wellFormed {type : String} (named : type = "char" ∨ type = "int") :
    WellFormed literal (pairOf type) := by
  rcases named with rfl | rfl
  · exact ⟨by decide, acyclic_of_below (by decide), by decide⟩
  · exact ⟨by decide, acyclic_of_below (by decide), by decide⟩

/-- The second field of type int is left with the type 0. -/
theorem later_unresolved :
    WellFormed literal (pairOf "int") ∧ ¬ Resolves literal (pairOf "int") := by
  have wf := pairOf_wellFormed (.inr rfl)
  refine ⟨wf, fun resolves => ?_⟩
  have preset := later_kept wf resolves
  exact absurd preset (by unfold LaterPreset; decide)

/-- complete_var_type resolves a table whose later fields have their types before the call, and no
other one. -/
theorem complete_iff_preset (regex : String → String → Match) (head : StructAll)
    (wf : WellFormed regex head) : Resolves regex head ↔ LaterPreset regex head :=
  ⟨later_kept wf, preset_resolves wf⟩

theorem complete_iff_preset_char : Resolves literal (pairOf "char") :=
  (complete_iff_preset literal (pairOf "char") (pairOf_wellFormed (.inl rfl))).mpr
    (by unfold LaterPreset; decide)

end MoonInWater.Sync.VarType
