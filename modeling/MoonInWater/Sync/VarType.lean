import Mathlib.Tactic.Common

/-! complete_var_type: the types of the fields of a struct table, and the number of pointers in an
element of each of its types. -/
namespace MoonInWater.Sync.VarType

/-- The functions that copy a basic type. -/
inductive CopyFunc where
  | unsignedIntCopy
  | signedIntCopy
  | pointCopy
  | floatCopy
deriving DecidableEq

/-- var_s -/
structure Var where
  type : String
  typeNum : Int
  arrayElemSize : Nat
  size : Nat
  len : Nat
  addr : Nat
  pointAddr : Int
deriving DecidableEq

/-- struct_one_s with its fields behind it; a basic type has none. -/
structure StructOne where
  name : String
  size : Nat
  pointNum : Int
  copyFunc : Option CopyFunc
  vars : List Var
deriving DecidableEq

/-- The types of struct_all_s. -/
abbrev StructAll := List StructOne

/-- GET_STRUCT_ONE -/
def getStructOne (all : StructAll) (index : Int) : Option StructOne :=
  if index < 0 then none else all[index.toNat]?

/-- What regcomp and regexec say of a pattern and a text. -/
inductive Match where
  | found
  | noMatch
  | failed
deriving DecidableEq

section
variable (regex : String → String → Match)

/-- The loop of find_type from the type `i` on. -/
def findTypeFrom (type : String) : Nat → StructAll → Int
  | _, [] => -1
  | i, one :: ones =>
    match regex one.name type with
    | .found => i
    | .noMatch => findTypeFrom type (i + 1) ones
    | .failed => -1

def findType (head : StructAll) (type : String) : Int := findTypeFrom regex type 0 head

def setFirstType (id : Int) (one : StructOne) : StructOne :=
  { one with vars := one.vars.modifyHead fun v => { v with typeNum := id } }

/-- The first turns of the loop over the fields of the type `i`; each takes the first field. False
after a return. -/
def resolveVars (i : Nat) : Nat → StructAll → StructAll × Bool
  | 0, head => (head, true)
  | j + 1, head =>
    let s := resolveVars i j head
    if s.2 then
      match s.1[i]?.bind fun one => one.vars.head? with
      | none => (s.1, false)
      | some tmpVar =>
        let id := findType regex s.1 tmpVar.type
        if id < 0 then (s.1, false) else (s.1.modify i (setFirstType id), true)
    else s

/-- The first turns of the loop over the types. -/
def resolveOnes : Nat → StructAll → StructAll × Bool
  | 0, head => (head, true)
  | i + 1, head =>
    let s := resolveOnes i head
    if s.2 then resolveVars regex i ((s.1[i]?.map fun one => one.vars.length).getD 0) s.1 else s

end

def setPointNum (n : Int) (one : StructOne) : StructOne := { one with pointNum := n }

def addPointNum (n : Int) (one : StructOne) : StructOne := { one with pointNum := one.pointNum + n }

/-- The field `j` begins behind the pointers counted so far. -/
def setPointAddr (j : Nat) (one : StructOne) : StructOne :=
  { one with vars := one.vars.modify j fun v => { v with pointAddr := one.pointNum } }

/-- The first turns of the loop of get_point_num over the fields of the type `i`. -/
def countVars (getPointNum : StructAll → Int → Option (StructAll × Int)) (i : Nat) :
    Nat → StructAll → Option StructAll
  | 0, all => some all
  | j + 1, all =>
    (countVars getPointNum i j all).bind fun all =>
      (all[i]?.bind fun one => one.vars[j]?).bind fun pVar =>
        (getPointNum (all.modify i (setPointAddr j)) pVar.typeNum).map fun s =>
          s.1.modify i (addPointNum (pVar.len * s.2))

/-- get_point_num; none when it reads outside of the table, or without end. -/
def getPointNum : Nat → StructAll → Int → Option (StructAll × Int)
  | 0, _, _ => none
  | fuel + 1, all, index =>
    (getStructOne all index).bind fun pOne =>
      if 0 ≤ pOne.pointNum then some (all, pOne.pointNum)
      else
        (countVars (getPointNum fuel) index.toNat pOne.vars.length
          (all.modify index.toNat (setPointNum 0))).bind fun all =>
            all[index.toNat]?.map fun pOne => (all, pOne.pointNum)

/-- The first turns of the loop that counts the pointers of every type. -/
def countOnes (fuel : Nat) : Nat → StructAll → Option StructAll
  | 0, head => some head
  | i + 1, head =>
    (countOnes fuel i head).bind fun head => (getPointNum fuel head i).map Prod.fst

def completeVarType (regex : String → String → Match) (fuel : Nat) (head : StructAll) :
    Option StructAll :=
  let s := resolveOnes regex head.length head
  if s.2 then countOnes fuel head.length s.1 else some s.1

section
variable {regex : String → String → Match} {typeOf : String → Int} {head : StructAll} {i j : Nat}
variable {one : StructOne}

theorem findTypeFrom_congr {head' : StructAll} {type : String} {i : Nat}
    (same : head.map StructOne.name = head'.map StructOne.name) :
    findTypeFrom regex type i head = findTypeFrom regex type i head' := by
  induction head generalizing head' i with
  | nil =>
    cases head' with
    | nil => rfl
    | cons one' ones' => cases same
  | cons one ones ih =>
    cases head' with
    | nil => cases same
    | cons one' ones' =>
      obtain ⟨name, rest⟩ := List.cons.inj same
      rw [findTypeFrom, findTypeFrom, name, ih rest]

theorem findType_congr {head' : StructAll}
    (same : head.map StructOne.name = head'.map StructOne.name) :
    findType regex head = findType regex head' := by
  funext type
  exact findTypeFrom_congr same

theorem findTypeFrom_lt {type : String} (found : 0 ≤ findTypeFrom regex type i head) :
    findTypeFrom regex type i head < i + head.length := by
  induction head generalizing i with
  | nil =>
    rw [findTypeFrom] at found
    omega
  | cons one ones ih =>
    rw [List.length_cons]
    unfold findTypeFrom at found ⊢
    split
    · omega
    · rename_i other
      rw [other] at found
      have less := ih found
      omega
    · omega

/-- What find_type returns is a type of the table. -/
theorem findType_valid {type : String} (found : 0 ≤ findType regex head type) :
    ∃ one, getStructOne head (findType regex head type) = some one := by
  have less := findTypeFrom_lt found
  have inside : (findType regex head type).toNat < head.length := by
    change findType regex head type < _ at less
    omega
  exact ⟨_, by rw [getStructOne, if_neg (Int.not_lt.mpr found), List.getElem?_eq_getElem inside]⟩

/-- The first field of a type with its type resolved. -/
def resolveFirst (typeOf : String → Int) (one : StructOne) : StructOne :=
  { one with vars := one.vars.modifyHead fun v => { v with typeNum := typeOf v.type } }

/-- The loop over the fields resolves the first one of them. -/
theorem resolveVars_spec (types : findType regex head = typeOf) (here : head[i]? = some one)
    (found : ∀ v ∈ one.vars, 0 ≤ typeOf v.type) (inside : j ≤ one.vars.length) :
    (resolveVars regex i j head).2 = true ∧ ∀ t, (resolveVars regex i j head).1[t]? =
      if t = i ∧ 0 < j then head[t]?.map (resolveFirst typeOf) else head[t]? := by
  induction j with
  | zero => exact ⟨rfl, fun t => by simp [resolveVars]⟩
  | succ j ih =>
    obtain ⟨going, before⟩ := ih (Nat.le_of_succ_le inside)
    obtain ⟨v, vars, fields⟩ := List.exists_cons_of_length_pos (Nat.lt_of_lt_of_le (Nat.succ_pos j)
      inside)
    have names : (resolveVars regex i j head).1.map StructOne.name =
        head.map StructOne.name := by
      apply List.ext_getElem?
      intro t
      rw [List.getElem?_map, List.getElem?_map, before t]
      split
      · rw [Option.map_map]
        rfl
      · rfl
    have types' : findType regex (resolveVars regex i j head).1 = typeOf :=
      (findType_congr names).trans types
    have first : ∃ v', ((resolveVars regex i j head).1[i]?.bind fun one => one.vars.head?) =
        some v' ∧ v'.type = v.type := by
      rw [before i, here]
      split
      · exact ⟨{ v with typeNum := typeOf v.type }, by simp [resolveFirst, fields], rfl⟩
      · exact ⟨v, by simp [fields], rfl⟩
    obtain ⟨v', tmpVar, type⟩ := first
    have named : ¬ typeOf v'.type < 0 := by
      rw [type]
      exact Int.not_lt.mpr (found v (by simp [fields]))
    have step : resolveVars regex i (j + 1) head =
        ((resolveVars regex i j head).1.modify i (setFirstType (typeOf v'.type)), true) := by
      simp only [resolveVars, going, if_true, tmpVar, types', if_neg named]
    rw [step]
    refine ⟨rfl, fun t => ?_⟩
    by_cases own : t = i
    · subst own
      rw [List.getElem?_modify_eq, before t, here]
      by_cases begun : 0 < j
      · rw [if_pos ⟨rfl, begun⟩, if_pos ⟨rfl, Nat.succ_pos j⟩]
        simp [resolveFirst, setFirstType, fields, type]
      · rw [if_neg (fun both => begun both.2), if_pos ⟨rfl, Nat.succ_pos j⟩]
        simp [resolveFirst, setFirstType, fields, type]
    · have other : i ≠ t := fun same => own same.symm
      rw [List.getElem?_modify_ne _ _ other, before t,
        if_neg (fun both => own both.1), if_neg (fun both => own both.1)]

/-- The loop over the types. -/
theorem resolveOnes_spec (found : ∀ one ∈ head, ∀ v ∈ one.vars, 0 ≤ findType regex head v.type)
    (inside : i ≤ head.length) :
    (resolveOnes regex i head).2 = true ∧ ∀ t, (resolveOnes regex i head).1[t]? =
      if t < i then head[t]?.map (resolveFirst (findType regex head)) else head[t]? := by
  induction i with
  | zero => exact ⟨rfl, fun t => by simp [resolveOnes]⟩
  | succ i ih =>
    obtain ⟨going, before⟩ := ih (Nat.le_of_succ_le inside)
    have names : (resolveOnes regex i head).1.map StructOne.name = head.map StructOne.name := by
      apply List.ext_getElem?
      intro t
      rw [List.getElem?_map, List.getElem?_map, before t]
      split
      · rw [Option.map_map]
        rfl
      · rfl
    have here : (resolveOnes regex i head).1[i]? = some head[i] := by
      rw [before i, if_neg (Nat.lt_irrefl i)]
      exact List.getElem?_eq_getElem inside
    obtain ⟨going', after⟩ := resolveVars_spec (findType_congr names) here
      (found head[i] (List.getElem_mem inside)) (Nat.le_refl _)
    have step : resolveOnes regex (i + 1) head =
        resolveVars regex i head[i].vars.length (resolveOnes regex i head).1 := by
      simp only [resolveOnes, going, if_true, here, Option.map_some, Option.getD_some]
    rw [step]
    refine ⟨going', fun t => ?_⟩
    rw [after t, before t]
    by_cases own : t = i
    · subst own
      rw [if_neg (Nat.lt_irrefl t), if_pos (Nat.lt_succ_self t)]
      split
      · rfl
      · rename_i empty
        have none' : head[t].vars = [] := by
          apply List.eq_nil_of_length_eq_zero
          omega
        rw [List.getElem?_eq_getElem inside]
        simp only [Option.map_some, Option.some.injEq]
        unfold resolveFirst
        rw [none', List.modifyHead_nil, ← none']
    · rw [if_neg (fun both => own both.1)]
      by_cases earlier : t < i
      · rw [if_pos earlier, if_pos (Nat.lt_succ_of_lt earlier)]
      · rw [if_neg earlier, if_neg (by omega)]

/-- The first loop of complete_var_type. -/
theorem resolve_eq (found : ∀ one ∈ head, ∀ v ∈ one.vars, 0 ≤ findType regex head v.type) :
    resolveOnes regex head.length head = (head.map (resolveFirst (findType regex head)), true) := by
  obtain ⟨going, after⟩ := resolveOnes_spec found (Nat.le_refl head.length)
  apply Prod.ext
  · apply List.ext_getElem?
    intro t
    rw [after t, List.getElem?_map]
    split
    · rfl
    · rename_i outside
      rw [List.getElem?_eq_none (Nat.not_lt.mp outside)]
      rfl
  · exact going

end

end MoonInWater.Sync.VarType
