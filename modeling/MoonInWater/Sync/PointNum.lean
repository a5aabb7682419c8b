import MoonInWater.Sync.VarType

/-! get_point_num counts the pointers of each type, and gives each field the number of those before
it. -/
namespace MoonInWater.Sync.VarType

/-- The types of the fields and the lengths of their arrays. -/
def StructOne.fields (typeOf : Var → Int) (one : StructOne) : List (Int × Nat) :=
  one.vars.map fun v => (typeOf v, v.len)

/-- The number of pointer leaves in some fields. -/
inductive Leaves (typeOf : Var → Int) (all : StructAll) : List (Int × Nat) → Int → Prop
  | nil : Leaves typeOf all [] 0
  | basic {t : Int} {len : Nat} {one : StructOne} {fields : List (Int × Nat)} {n : Int}
      (here : getStructOne all t = some one) (none' : one.vars = [])
      (rest : Leaves typeOf all fields n) :
      Leaves typeOf all ((t, len) :: fields) (len * one.pointNum + n)
  | struct {t : Int} {len : Nat} {one : StructOne} {fields : List (Int × Nat)} {k n : Int}
      (here : getStructOne all t = some one) (some' : one.vars ≠ [])
      (inner : Leaves typeOf all (one.fields typeOf) k) (rest : Leaves typeOf all fields n) :
      Leaves typeOf all ((t, len) :: fields) (len * k + n)

/-- The number of pointer leaves in an element of a type. -/
def TypeLeaves (typeOf : Var → Int) (all : StructAll) (t n : Int) : Prop :=
  Leaves typeOf all [(t, 1)] n


/-- A type without what get_point_num computes. -/
def StructOne.uncounted (one : StructOne) : StructOne :=
  { one with pointNum := 0, vars := one.vars.map fun v => { v with pointAddr := 0 } }

section
variable {all all' : StructAll} {one one' : StructOne} {i j t : Nat} {n : Int}

theorem map_modify_same {α β : Type} {g : α → β} {f : α → α} (same : ∀ a, g (f a) = g a)
    (l : List α) (i : Nat) : (l.modify i f).map g = l.map g := by
  induction l generalizing i with
  | nil => rw [List.modify_nil]
  | cons a l ih =>
    cases i with
    | zero => rw [List.modify_zero_cons, List.map_cons, List.map_cons, same]
    | succ i => rw [List.modify_succ_cons, List.map_cons, List.map_cons, ih]

theorem setPointNum_uncounted (one : StructOne) : (setPointNum n one).uncounted = one.uncounted :=
  rfl

theorem addPointNum_uncounted (one : StructOne) : (addPointNum n one).uncounted = one.uncounted :=
  rfl

theorem setPointAddr_uncounted (one : StructOne) :
    (setPointAddr j one).uncounted = one.uncounted := by
  have vars : (setPointAddr j one).vars.map (fun v => { v with pointAddr := 0 }) =
      one.vars.map fun v => { v with pointAddr := 0 } := by
    apply map_modify_same
    intro v
    rfl
  rw [StructOne.uncounted, vars]
  rfl

theorem countVars_uncounted {inner : StructAll → Int → Option (StructAll × Int)}
    (kept : ∀ all index s, inner all index = some s →
      s.1.map StructOne.uncounted = all.map StructOne.uncounted)
    (ran : countVars inner i j all = some all') :
    all'.map StructOne.uncounted = all.map StructOne.uncounted := by
  induction j generalizing all' with
  | zero =>
    cases ran
    rfl
  | succ j ih =>
    obtain ⟨before, ran₀, ran⟩ := Option.bind_eq_some_iff.mp ran
    obtain ⟨pVar, _, ran⟩ := Option.bind_eq_some_iff.mp ran
    obtain ⟨s, called, ran⟩ := Option.map_eq_some_iff.mp ran
    subst ran
    rw [map_modify_same addPointNum_uncounted, kept _ _ s called,
      map_modify_same setPointAddr_uncounted, ih ran₀]

/-- get_point_num changes nothing but the numbers it computes. -/
theorem getPointNum_uncounted {fuel : Nat} {index : Int} {s : StructAll × Int}
    (ran : getPointNum fuel all index = some s) :
    s.1.map StructOne.uncounted = all.map StructOne.uncounted := by
  induction fuel generalizing all index s with
  | zero => cases ran
  | succ fuel ih =>
    obtain ⟨pOne, _, ran⟩ := Option.bind_eq_some_iff.mp ran
    split at ran
    · cases ran
      rfl
    · obtain ⟨after, loop, ran⟩ := Option.bind_eq_some_iff.mp ran
      obtain ⟨pOne, _, ran⟩ := Option.map_eq_some_iff.mp ran
      subst ran
      rw [countVars_uncounted (fun _ _ _ => ih) loop, map_modify_same setPointNum_uncounted]

theorem countOnes_uncounted {fuel : Nat} (ran : countOnes fuel i all = some all') :
    all'.map StructOne.uncounted = all.map StructOne.uncounted := by
  induction i generalizing all' with
  | zero =>
    cases ran
    rfl
  | succ i ih =>
    obtain ⟨before, ran₀, ran⟩ := Option.bind_eq_some_iff.mp ran
    obtain ⟨s, called, ran⟩ := Option.map_eq_some_iff.mp ran
    subst ran
    rw [getPointNum_uncounted called, ih ran₀]

theorem uncounted_getElem? (same : all'.map StructOne.uncounted = all.map StructOne.uncounted)
    (here : all'[t]? = some one') :
    ∃ one, all[t]? = some one ∧ one'.uncounted = one.uncounted := by
  have both := congrArg (fun all => all[t]?) same
  simp only [List.getElem?_map, here, Option.map_some] at both
  obtain ⟨one, found, same⟩ := Option.map_eq_some_iff.mp both.symm
  exact ⟨one, found, same.symm⟩

theorem uncounted_fields {typeOf : Var → Int}
    (typed : ∀ v : Var, typeOf { v with pointAddr := 0 } = typeOf v)
    (same : one'.uncounted = one.uncounted) : one'.fields typeOf = one.fields typeOf := by
  have vars := congrArg (fun one => one.fields typeOf) same
  simpa only [StructOne.fields, StructOne.uncounted, List.map_map, Function.comp_def, typed]
    using vars

end

/-- The table before get_point_num: the fields have types of the table, none of which contains
itself, and the numbers of pointers are known for the basic types alone. -/
structure Uncounted (rank : Int → Nat) (all : StructAll) : Prop where
  valid : ∀ t one, getStructOne all t = some one → ∀ v ∈ one.vars,
    ∃ inner, getStructOne all v.typeNum = some inner ∧ rank v.typeNum < rank t
  preset : ∀ t one, getStructOne all t = some one → (one.vars = [] ↔ 0 ≤ one.pointNum)

/-- The numbers of a type are those of its pointers. -/
structure Counted (all : StructAll) (t : Int) (one : StructOne) : Prop where
  pointNum : TypeLeaves Var.typeNum all t one.pointNum
  pointAddr : ∀ j v, one.vars[j]? = some v →
    Leaves Var.typeNum all ((one.fields Var.typeNum).take j) v.pointAddr

/-- While get_point_num runs: the types in `busy` are those of the calls under way, and of the
others each is counted or not begun. -/
structure Counting (all₀ : StructAll) (busy : Int → Prop) (all : StructAll) : Prop where
  same : all.map StructOne.uncounted = all₀.map StructOne.uncounted
  counted : ∀ t one, ¬ busy t → getStructOne all t = some one →
    one.vars ≠ [] ∧ one.pointNum < 0 ∨ 0 ≤ one.pointNum ∧ Counted all₀ t one

section
variable {typeOf : Var → Int} {all : StructAll} {one : StructOne} {s t m n : Int}
variable {fields fields' : List (Int × Nat)} {f : StructOne → StructOne}

theorem getStructOne_eq_some :
    getStructOne all t = some one ↔ 0 ≤ t ∧ all[t.toNat]? = some one := by
  by_cases negative : t < 0
  · simp [getStructOne, negative, Int.not_le.mpr negative]
  · simp [getStructOne, negative, Int.not_lt.mp negative]

theorem getStructOne_modify_self (here : getStructOne all t = some one) :
    getStructOne (all.modify t.toNat f) t = some (f one) := by
  obtain ⟨nonneg, here⟩ := getStructOne_eq_some.mp here
  apply getStructOne_eq_some.mpr
  rw [List.getElem?_modify_eq, here]
  exact ⟨nonneg, rfl⟩

theorem getStructOne_modify_ne (valid : 0 ≤ t) (other : s ≠ t) :
    getStructOne (all.modify t.toNat f) s = getStructOne all s := by
  by_cases negative : s < 0
  · rw [getStructOne, getStructOne, if_pos negative, if_pos negative]
  · have apart : t.toNat ≠ s.toNat := by omega
    rw [getStructOne, getStructOne, if_neg negative, if_neg negative,
      List.getElem?_modify_ne _ _ apart]

theorem Leaves.append (front : Leaves typeOf all fields m) (rear : Leaves typeOf all fields' n) :
    Leaves typeOf all (fields ++ fields') (m + n) := by
  induction front with
  | nil =>
    rw [Int.zero_add]
    exact rear
  | basic here none' rest ih =>
    rw [List.cons_append, Int.add_assoc]
    exact .basic here none' ih
  | struct here some' inner rest inner_ih ih =>
    rw [List.cons_append, Int.add_assoc]
    exact .struct here some' inner ih

theorem Leaves.eq_zero (none' : Leaves typeOf all [] n) : n = 0 := by
  cases none'
  rfl

theorem Leaves.unique (leaves : Leaves typeOf all fields m) (leaves' : Leaves typeOf all fields n) :
    m = n := by
  induction leaves generalizing n with
  | nil => exact leaves'.eq_zero.symm
  | basic here none' rest ih =>
    cases leaves' with
    | basic here' none'' rest' =>
      cases here.symm.trans here'
      rw [ih rest']
    | struct here' some' inner rest' =>
      cases here.symm.trans here'
      exact absurd none' some'
  | struct here some' inner rest inner_ih ih =>
    cases leaves' with
    | basic here' none' rest' =>
      cases here.symm.trans here'
      exact absurd none' some'
    | struct here' some'' inner' rest' =>
      cases here.symm.trans here'
      rw [inner_ih inner', ih rest']

/-- The pointers of an array. -/
theorem TypeLeaves.array (leaves : TypeLeaves typeOf all t n) (len : Nat) :
    Leaves typeOf all [(t, len)] (len * n) := by
  cases leaves with
  | basic here none' rest =>
    cases rest
    rw [Int.add_zero, Int.natCast_one, Int.one_mul, ← Int.add_zero (len * _)]
    exact .basic here none' .nil
  | struct here some' inner rest =>
    cases rest
    rw [Int.add_zero, Int.natCast_one, Int.one_mul, ← Int.add_zero (len * _)]
    exact .struct here some' inner .nil

theorem TypeLeaves.of_basic (here : getStructOne all t = some one) (none' : one.vars = []) :
    TypeLeaves typeOf all t one.pointNum := by
  have whole : Leaves typeOf all [(t, 1)] ((1 : Nat) * one.pointNum + 0) := .basic here none' .nil
  rwa [Int.add_zero, Int.natCast_one, Int.one_mul] at whole

theorem TypeLeaves.of_fields (here : getStructOne all t = some one) (some' : one.vars ≠ [])
    (inner : Leaves typeOf all (one.fields typeOf) n) : TypeLeaves typeOf all t n := by
  have whole : Leaves typeOf all [(t, 1)] ((1 : Nat) * n + 0) := .struct here some' inner .nil
  rwa [Int.add_zero, Int.natCast_one, Int.one_mul] at whole

end

/-- A call of get_point_num counts the pointers of its type, and leaves the types counted before
as they are. -/
def Counts (all₀ : StructAll) (rank : Int → Nat) (fuel : Nat) : Prop :=
  ∀ busy all t one, Counting all₀ busy all → (∀ s, busy s → rank t < rank s) →
    getStructOne all₀ t = some one → rank t < fuel →
    ∃ all' n, getPointNum fuel all t = some (all', n) ∧ 0 ≤ n ∧ TypeLeaves Var.typeNum all₀ t n ∧
      Counting all₀ busy all' ∧
      (∀ s one, getStructOne all s = some one → 0 ≤ one.pointNum →
        getStructOne all' s = some one) ∧
      ∃ one', getStructOne all' t = some one' ∧ 0 ≤ one'.pointNum

/-- Within the loop over the fields of the type `t`, behind the first `j` of them. -/
structure Turning (all₀ : StructAll) (busy : Int → Prop) (start : StructAll) (t : Int) (j : Nat)
    (all : StructAll) (one : StructOne) : Prop where
  counting : Counting all₀ (fun s => busy s ∨ s = t) all
  here : getStructOne all t = some one
  pointNum : Leaves Var.typeNum all₀ ((one.fields Var.typeNum).take j) one.pointNum
  nonneg : 0 ≤ one.pointNum
  pointAddr : ∀ i v, i < j → one.vars[i]? = some v →
    Leaves Var.typeNum all₀ ((one.fields Var.typeNum).take i) v.pointAddr
  stays : ∀ s one, s ≠ t → getStructOne start s = some one → 0 ≤ one.pointNum →
    getStructOne all s = some one

section
variable {all₀ all start : StructAll} {rank : Int → Nat} {busy : Int → Prop} {fuel j : Nat}
variable {one one₀ : StructOne} {t : Int}

/-- The entry of a type in the table before the call. -/
theorem Counting.before (counting : Counting all₀ busy all)
    (here : getStructOne all t = some one) :
    ∃ one₀, getStructOne all₀ t = some one₀ ∧ one.uncounted = one₀.uncounted := by
  obtain ⟨nonneg, here⟩ := getStructOne_eq_some.mp here
  obtain ⟨one₀, found, same⟩ := uncounted_getElem? counting.same here
  exact ⟨one₀, getStructOne_eq_some.mpr ⟨nonneg, found⟩, same⟩

theorem setPointAddr_fields : (setPointAddr j one).fields Var.typeNum = one.fields Var.typeNum :=
  uncounted_fields (fun _ => rfl) (setPointAddr_uncounted one)

/-- A change of a busy type. -/
theorem Counting.modify {f : StructOne → StructOne} (counting : Counting all₀ busy all)
    (valid : 0 ≤ t) (own : busy t) (same : ∀ one, (f one).uncounted = one.uncounted) :
    Counting all₀ busy (all.modify t.toNat f) := by
  constructor
  · rw [map_modify_same same, counting.same]
  · intro s one idle here
    have other : s ≠ t := fun equal => idle (equal ▸ own)
    rw [getStructOne_modify_ne valid other] at here
    exact counting.counted s one idle here

/-- A turn of the loop over the fields. -/
theorem Turning.step (wf : Uncounted rank all₀) (counts : Counts all₀ rank fuel)
    (lower : ∀ s, busy s → rank t < rank s) (enough : rank t < fuel + 1)
    (turning : Turning all₀ busy start t j all one) (inside : j < one.vars.length)
    (ran : countVars (getPointNum fuel) t.toNat j start = some all) :
    ∃ all' one', countVars (getPointNum fuel) t.toNat (j + 1) start = some all' ∧
      one'.vars.length = one.vars.length ∧ Turning all₀ busy start t (j + 1) all' one' := by
  obtain ⟨valid, found⟩ := getStructOne_eq_some.mp turning.here
  have var := List.getElem?_eq_getElem inside
  generalize one.vars[j] = v at var
  -- the type of the field is in the table, below this one
  obtain ⟨one₀, here₀, same⟩ := turning.counting.before turning.here
  have fields : one.fields Var.typeNum = one₀.fields Var.typeNum :=
    uncounted_fields (fun _ => rfl) same
  have field : (v.typeNum, v.len) ∈ one₀.fields Var.typeNum := by
    rw [← fields]
    exact List.mem_map.mpr ⟨v, List.mem_of_getElem? var, rfl⟩
  obtain ⟨v₀, mem, typed⟩ := List.mem_map.mp field
  obtain ⟨inner, inner_here, below⟩ := wf.valid t one₀ here₀ v₀ mem
  rw [(Prod.mk.inj typed).1] at inner_here below
  have counting := turning.counting.modify valid (.inr rfl) (setPointAddr_uncounted (j := j))
  have here := getStructOne_modify_self (f := setPointAddr j) turning.here
  have lower' : ∀ s, busy s ∨ s = t → rank v.typeNum < rank s := by
    rintro s (other | rfl)
    · exact Nat.lt_trans below (lower s other)
    · exact below
  obtain ⟨all', n, called, nonneg, leaves, counting', stays, _⟩ :=
    counts _ _ _ _ counting lower' inner_here (by omega)
  have here' := stays t _ here turning.nonneg
  refine ⟨all'.modify t.toNat (addPointNum (v.len * n)),
    addPointNum (v.len * n) (setPointAddr j one), ?_, ?_, ?_⟩
  · rw [countVars, ran, Option.bind_some, found, Option.bind_some, var, Option.bind_some, called]
    rfl
  · exact List.length_modify ..
  · constructor
    · exact counting'.modify valid (.inr rfl) addPointNum_uncounted
    · exact getStructOne_modify_self here'
    · have last : (one.fields Var.typeNum).take (j + 1) =
          (one.fields Var.typeNum).take j ++ [(v.typeNum, v.len)] := by
        rw [List.take_add_one, StructOne.fields, List.getElem?_map, var]
        rfl
      change Leaves _ _ ((setPointAddr j one).fields Var.typeNum |>.take (j + 1)) _
      rw [setPointAddr_fields, last]
      exact turning.pointNum.append (leaves.array v.len)
    · exact Int.add_nonneg turning.nonneg (Int.mul_nonneg (Int.natCast_nonneg _) nonneg)
    · intro i w earlier found'
      change Leaves _ _ ((setPointAddr j one).fields Var.typeNum |>.take i) _
      rw [setPointAddr_fields]
      change (setPointAddr j one).vars[i]? = some w at found'
      rcases Nat.lt_or_eq_of_le (Nat.le_of_lt_succ earlier) with less | equal
      · rw [setPointAddr, List.getElem?_modify_ne _ _ (Nat.ne_of_gt less)] at found'
        exact turning.pointAddr i w less found'
      · subst equal
        rw [setPointAddr, List.getElem?_modify_eq, var] at found'
        cases found'
        exact turning.pointNum
    · intro s other apart first known
      rw [getStructOne_modify_ne valid apart]
      apply stays s other _ known
      rw [getStructOne_modify_ne valid apart]
      exact turning.stays s other apart first known

/-- The first `j` turns of the loop over the fields. -/
theorem Turning.run (wf : Uncounted rank all₀) (counts : Counts all₀ rank fuel)
    (lower : ∀ s, busy s → rank t < rank s) (enough : rank t < fuel + 1)
    (turning : Turning all₀ busy start t 0 start one) (inside : j ≤ one.vars.length) :
    ∃ all' one', countVars (getPointNum fuel) t.toNat j start = some all' ∧
      one'.vars.length = one.vars.length ∧ Turning all₀ busy start t j all' one' := by
  induction j with
  | zero => exact ⟨start, one, rfl, rfl, turning⟩
  | succ j ih =>
    obtain ⟨all, one, ran, length, turning⟩ := ih (Nat.le_of_succ_le inside)
    obtain ⟨all', one', ran', length', turning'⟩ := turning.step wf counts lower enough
      (by omega) ran
    exact ⟨all', one', ran', by omega, turning'⟩

/-- After its loop a type is counted. -/
theorem Turning.done (turning : Turning all₀ busy start t one.vars.length all one)
    (some' : one.vars ≠ []) : 0 ≤ one.pointNum ∧ Counted all₀ t one := by
  obtain ⟨one₀, here₀, same⟩ := turning.counting.before turning.here
  have fields : one.fields Var.typeNum = one₀.fields Var.typeNum :=
    uncounted_fields (fun _ => rfl) same
  have vars : one₀.vars ≠ [] := by
    intro empty
    have length := congrArg List.length fields
    simp only [StructOne.fields, List.length_map, empty, List.length_nil] at length
    exact some' (List.eq_nil_of_length_eq_zero length)
  have whole : (one.fields Var.typeNum).length = one.vars.length := List.length_map ..
  have leaves := turning.pointNum
  rw [← whole, List.take_length, fields] at leaves
  refine ⟨turning.nonneg, TypeLeaves.of_fields here₀ vars leaves, ?_⟩
  intro i v found
  exact turning.pointAddr i v (List.getElem?_eq_some_iff.mp found).1 found

theorem getPointNum_spec (wf : Uncounted rank all₀) (fuel : Nat) : Counts all₀ rank fuel := by
  induction fuel with
  | zero =>
    intro busy all t one _ _ _ enough
    exact absurd enough (Nat.not_lt_zero _)
  | succ fuel ih =>
    intro busy all t one₀ counting lower here₀ enough
    have idle : ¬ busy t := fun own => Nat.lt_irrefl _ (lower t own)
    obtain ⟨valid, found₀⟩ := getStructOne_eq_some.mp here₀
    obtain ⟨one, found, same⟩ := uncounted_getElem? counting.same.symm found₀
    have here : getStructOne all t = some one := getStructOne_eq_some.mpr ⟨valid, found⟩
    by_cases known : 0 ≤ one.pointNum
    · rcases counting.counted t one idle here with ⟨_, fresh⟩ | ⟨_, counted⟩
      · omega
      · refine ⟨all, one.pointNum, ?_, known, counted.pointNum, counting, fun _ _ same _ => same,
          one, here, known⟩
        rw [getPointNum, here, Option.bind_some, if_pos known]
    · rcases counting.counted t one idle here with ⟨some', _⟩ | ⟨nonneg, _⟩
      · have begun : Turning all₀ busy (all.modify t.toNat (setPointNum 0)) t 0
            (all.modify t.toNat (setPointNum 0)) (setPointNum 0 one) := by
          constructor
          · have wider : Counting all₀ (fun s => busy s ∨ s = t) all :=
              ⟨counting.same, fun s one free => counting.counted s one fun own => free (.inl own)⟩
            exact wider.modify valid (.inr rfl) setPointNum_uncounted
          · exact getStructOne_modify_self here
          · exact .nil
          · exact Int.le_refl 0
          · intro i v less
            exact absurd less (Nat.not_lt_zero i)
          · exact fun _ _ _ same _ => same
        obtain ⟨all', one', ran, length, turning⟩ := begun.run wf ih lower enough (Nat.le_refl _)
        have vars : one'.vars ≠ [] := by
          intro empty
          rw [empty] at length
          exact some' (List.eq_nil_of_length_eq_zero length.symm)
        rw [← length] at turning
        obtain ⟨nonneg, counted⟩ := turning.done vars
        obtain ⟨_, here'⟩ := getStructOne_eq_some.mp turning.here
        refine ⟨all', one'.pointNum, ?_, nonneg, counted.pointNum, ⟨turning.counting.same, ?_⟩, ?_,
          one', turning.here, nonneg⟩
        · change countVars (getPointNum fuel) t.toNat one.vars.length _ = _ at ran
          rw [getPointNum, here, Option.bind_some, if_neg known, ran, Option.bind_some, here']
          rfl
        · intro s other free there
          by_cases own : s = t
          · subst own
            cases turning.here.symm.trans there
            exact .inr ⟨nonneg, counted⟩
          · exact turning.counting.counted s other (not_or.mpr ⟨free, own⟩) there
        · intro s other there ready
          have apart : s ≠ t := by
            rintro rfl
            cases here.symm.trans there
            exact known ready
          apply turning.stays s other apart _ ready
          rw [getStructOne_modify_ne valid apart]
          exact there
      · omega

/-- The loop over the types counts each of them. -/
theorem countOnes_spec (wf : Uncounted rank all₀) (enough : ∀ i < all₀.length, rank i < fuel)
    {i : Nat} (inside : i ≤ all₀.length) :
    ∃ all, countOnes fuel i all₀ = some all ∧ Counting all₀ (fun _ => False) all ∧
      ∀ s < i, ∃ one, getStructOne all s = some one ∧ 0 ≤ one.pointNum := by
  induction i with
  | zero =>
    refine ⟨all₀, rfl, ⟨rfl, ?_⟩, fun s less => absurd less (Nat.not_lt_zero s)⟩
    intro t one _ here
    by_cases basic : one.vars = []
    · refine .inr ⟨(wf.preset t one here).mp basic, .of_basic here basic, ?_⟩
      intro j v found
      rw [basic] at found
      cases found
    · exact .inl ⟨basic, Int.not_le.mp fun known => basic ((wf.preset t one here).mpr known)⟩
  | succ i ih =>
    obtain ⟨all, ran, counting, ready⟩ := ih (Nat.le_of_succ_le inside)
    have here : getStructOne all₀ i = some all₀[i] :=
      getStructOne_eq_some.mpr ⟨Int.natCast_nonneg i, List.getElem?_eq_getElem inside⟩
    obtain ⟨all', n, called, _, _, counting', stays, own⟩ :=
      getPointNum_spec wf fuel _ all i _ counting (fun _ none' => none'.elim) here
        (enough i inside)
    refine ⟨all', ?_, counting', ?_⟩
    · rw [countOnes, ran, Option.bind_some, called]
      rfl
    · intro s less
      rcases Nat.lt_or_eq_of_le (Nat.le_of_lt_succ less) with earlier | rfl
      · obtain ⟨one, there, known⟩ := ready s earlier
        exact ⟨one, stays s one there known, known⟩
      · exact own

theorem rank_bounded (rank : Int → Nat) (n : Nat) : ∃ fuel, ∀ i < n, rank i < fuel := by
  induction n with
  | zero => exact ⟨0, fun i less => absurd less (Nat.not_lt_zero i)⟩
  | succ n ih =>
    obtain ⟨fuel, bound⟩ := ih
    refine ⟨max fuel (rank n + 1), fun i less => ?_⟩
    rcases Nat.lt_or_eq_of_le (Nat.le_of_lt_succ less) with earlier | rfl
    · have below := bound i earlier
      omega
    · omega

/-- With the types of the fields known, the second loop counts the pointers. -/
theorem count_spec (wf : Uncounted rank all₀) :
    ∃ fuel all, countOnes fuel all₀.length all₀ = some all ∧
      all.map StructOne.uncounted = all₀.map StructOne.uncounted ∧
      ∀ t one, getStructOne all t = some one → Counted all₀ t one := by
  obtain ⟨fuel, enough⟩ := rank_bounded rank all₀.length
  obtain ⟨all, ran, counting, ready⟩ := countOnes_spec wf enough (Nat.le_refl _)
  refine ⟨fuel, all, ran, counting.same, fun t one here => ?_⟩
  obtain ⟨valid, found⟩ := getStructOne_eq_some.mp here
  have length := congrArg List.length counting.same
  rw [List.length_map, List.length_map] at length
  have less : t.toNat < all₀.length := length ▸ (List.getElem?_eq_some_iff.mp found).1
  obtain ⟨one', there, known⟩ := ready t.toNat less
  rw [Int.toNat_of_nonneg valid] at there
  cases here.symm.trans there
  rcases counting.counted t one (fun none' => none') here with ⟨_, fresh⟩ | ⟨_, counted⟩
  · omega
  · exact counted

end

end MoonInWater.Sync.VarType
