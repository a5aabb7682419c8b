import MoonInWater.Sync.BlockShare
import Mathlib.Tactic.Abel

/-! Who refers to a block: the versions that are not closed, the copies that were made of it, and
the calls under way. The count of each block is the number of these references, and it is freed
once there are none. -/
namespace MoonInWater.Sync.BlockShare
open Counted Jobs Threads

/-- The reference that a block has to its original. -/
def originOf (block : Object (Option Nat)) : Multiset Nat :=
  if 0 < block.count then (block.value.toList : Multiset Nat) else 0

/-- The references of a version that is not closed. -/
def Version.entries (version : Version) : Multiset Nat :=
  if version.status = .closed then 0 else version.orderId

/-- The references that a job has taken, or is to drop. -/
def Job.holds : Job → Multiset Nat
  | .merge _ _ _ made => made
  | .memBlockRefDec p => {p}
  | _ => 0

attribute [simp] Job.holds

def Job.dying : Job → Multiset Nat
  | .free p => {p}
  | _ => 0

/-- The user of a version that a job has with it. -/
def Job.uses (v : Nat) : Job → Nat
  | .merge w _ _ _ => if w = v then 1 else 0
  | .useing w => if w = v then 1 else 0
  | .decVersionUserNum w => if w = v then 1 else 0
  | _ => 0

/-- All references to blocks. -/
def held (g : State) (M : Multiset Job) : Multiset Nat :=
  (g.versions.map Version.entries).sum + (g.blocks.map originOf).sum + (M.map Job.holds).sum

/-- The blocks that a job is about to read or to write. -/
def Job.touches (g : State) : Job → List Nat
  | .merge _ ((.keep, p) :: _) _ _ => [p]
  | .merge _ ((.write, p) :: _) _ _ =>
    p :: ((g.blocks[p]?.bind Object.value).toList)
  | .useing v => (g.versions[v]?.map Version.orderId).getD []
  | .memBlockRefDec p => [p]
  | .free p => [p]
  | _ => []

/-- p_original_block is a block that is no copy itself. -/
def FlatOriginals (blocks : Store (Option Nat)) : Prop :=
  ∀ (p o : Nat) (copy : Object (Option Nat)), blocks[p]? = some copy → copy.value = some o →
    ∃ block : Object (Option Nat), blocks[o]? = some block ∧ block.value = none

/-- The counts are those of the references, and each version those of its users. -/
structure Inv (g : State) (M : Multiset Job) : Prop where
  sound : Sound g.blocks (held g M) (M.map Job.dying).sum
  origin : FlatOriginals g.blocks
  users : ∀ v, (M.map (Job.uses v)).sum = (g.versions[v]?.elim 0 Version.users)
  closed : ∀ version ∈ g.versions, version.status = .closed → version.users = 0
  old : ∀ version ∈ g.versions, version.status = .old → 0 < version.users
  merges : ∀ v todo news made, .merge v todo news made ∈ M →
    ∃ version, g.versions[v]? = some version ∧ ∀ x ∈ todo, x.2 ∈ version.orderId

variable {g g' : State} {M : Multiset Job} {job : Job} {jobs : List Job} {p v : Nat}

theorem held_cons : held g (job ::ₘ M) = job.holds + held g M := by
  rw [held, held, Multiset.map_cons, Multiset.sum_cons, add_left_comm]

theorem held_jobs : held g (jobs + M) = (jobs.map Job.holds).sum + held g M := by
  rw [held, held, Multiset.map_add, Multiset.sum_add, Multiset.map_coe, Multiset.sum_coe,
    add_left_comm]

theorem dying_jobs : (((jobs : Multiset Job) + M).map Job.dying).sum =
    (jobs.map Job.dying).sum + (M.map Job.dying).sum := by
  rw [Multiset.map_add, Multiset.sum_add, Multiset.map_coe, Multiset.sum_coe]

theorem uses_jobs (v : Nat) : (((jobs : Multiset Job) + M).map (Job.uses v)).sum =
    (jobs.map (Job.uses v)).sum + (M.map (Job.uses v)).sum := by
  rw [Multiset.map_add, Multiset.sum_add, Multiset.map_coe, Multiset.sum_coe]

section close
variable (made : List Nat)

theorem holds_decs : ((made.map Job.memBlockRefDec).map Job.holds).sum = (made : Multiset Nat) := by
  induction made with
  | nil => rfl
  | cons p made ih =>
    rw [List.map_cons, List.map_cons, List.sum_cons, ih]
    rfl

theorem dying_decs : ((made.map Job.memBlockRefDec).map Job.dying).sum = 0 := by
  induction made with
  | nil => rfl
  | cons p made ih =>
    rw [List.map_cons, List.map_cons, List.sum_cons, ih]
    rfl

theorem uses_decs (v : Nat) : ((made.map Job.memBlockRefDec).map (Job.uses v)).sum = 0 := by
  induction made with
  | nil => rfl
  | cons p made ih =>
    rw [List.map_cons, List.map_cons, List.sum_cons, ih]
    rfl

end close

/-- A version with users has all its blocks. -/
theorem holds_entries {version : Version} (at' : g.versions[v]? = some version)
    (opened : version.status ≠ .closed) (inside : p ∈ version.orderId) : p ∈ held g M := by
  obtain ⟨rest, sum, -⟩ := sum_modify Version.entries at'
  rw [held, sum, Version.entries, if_neg opened]
  simp [inside]

theorem Inv.in_use (inv : Inv g M) {version : Version} (at' : g.versions[v]? = some version)
    (member : job ∈ M) (uses : job.uses v = 1) : version.status ≠ .closed := by
  intro closed
  have none := inv.closed version (List.mem_of_getElem? at') closed
  obtain ⟨rest, rfl⟩ := Multiset.exists_cons_of_mem member
  have users := inv.users v
  rw [at', Multiset.map_cons, Multiset.sum_cons, uses] at users
  change _ = version.users at users
  omega

/-- A step that leaves the versions alone. -/
theorem Inv.of_blocks (inv : Inv g (job ::ₘ M)) {blocks : Store (Option Nat)}
    (sound : Sound blocks (held { g with blocks := blocks } (jobs + M))
      (((jobs : Multiset Job) + M).map Job.dying).sum)
    (origin : FlatOriginals blocks)
    (uses : ∀ v, (jobs.map (Job.uses v)).sum = job.uses v)
    (merges : ∀ v todo news made, .merge v todo news made ∈ jobs →
      ∃ todo' news' made', job = .merge v todo' news' made' ∧ todo ⊆ todo') :
    Inv { g with blocks := blocks } (jobs + M) := by
  constructor
  · exact sound
  · exact origin
  · intro v
    rw [uses_jobs, uses, ← Multiset.sum_cons, ← Multiset.map_cons]
    exact inv.users v
  · exact inv.closed
  · exact inv.old
  · intro v todo news made member
    rcases Multiset.mem_add.mp member with own | other
    · obtain ⟨todo', news', made', rfl, fewer⟩ := merges v todo news made own
      obtain ⟨version, at', inside⟩ := inv.merges v todo' news' made' (Multiset.mem_cons_self _ _)
      exact ⟨version, at', fun x among => inside x (fewer among)⟩
    · exact inv.merges v todo news made (Multiset.mem_cons_of_mem other)

/-- A step that changes the jobs only. -/
theorem Inv.of_jobs (inv : Inv g (job ::ₘ M)) (holds : (jobs.map Job.holds).sum = job.holds)
    (dying : (jobs.map Job.dying).sum = job.dying)
    (uses : ∀ v, (jobs.map (Job.uses v)).sum = job.uses v)
    (merges : ∀ v todo news made, .merge v todo news made ∈ jobs →
      ∃ todo' news' made', job = .merge v todo' news' made' ∧ todo ⊆ todo') :
    Inv g (jobs + M) := by
  apply inv.of_blocks _ inv.origin uses merges
  rw [held_jobs, dying_jobs, holds, dying, ← Multiset.sum_cons, ← Multiset.map_cons, ← held_cons]
  exact inv.sound

theorem Inv.origin_modify (inv : Inv g M) {f : Object (Option Nat) → Object (Option Nat)}
    (keeps : ∀ block, (f block).value = block.value) :
    FlatOriginals (g.blocks.modify q f) := by
  intro p o copy at' value
  obtain ⟨before, found, same⟩ := modify_cases at'
  have value' : before.value = some o := by
    rcases same with ⟨-, rfl⟩ | ⟨-, rfl⟩
    · rw [← keeps, value]
    · exact value
  obtain ⟨block, there, root⟩ := inv.origin p o before found value'
  by_cases here : q = o
  · subst here
    exact ⟨f block, modify_self there, (keeps block).trans root⟩
  · exact ⟨block, (modify_other here).trans there, root⟩

/-- A block whose count stays on one side of zero has the same reference to its original. -/
theorem held_modify {block : Object (Option Nat)} (at' : g.blocks[p]? = some block)
    {f : Object (Option Nat) → Object (Option Nat)} (same : originOf (f block) = originOf block)
    (M : Multiset Job) : held { g with blocks := g.blocks.modify p f } M = held g M := by
  obtain ⟨rest, sum, changed⟩ := sum_modify originOf at'
  rw [held, held, changed, sum, same]

theorem originOf_counted {block : Object (Option Nat)} {n : Int} (before : 0 < block.count)
    (after : 0 < block.count + n) : originOf (block.counted n) = originOf block := by
  rw [originOf, originOf, Object.counted, if_pos after, if_pos before]

theorem Inv.free (inv : Inv g (.free p ::ₘ M)) :
    Inv { g with blocks := Counted.free g.blocks p } (([] : List Job) + M) := by
  have sound := inv.sound
  rw [held_cons, Multiset.map_cons, Multiset.sum_cons] at sound
  have sound' : Sound g.blocks (held g M) (p ::ₘ (M.map Job.dying).sum) := by
    simpa [Job.holds, Job.dying] using sound
  obtain ⟨block, at'⟩ : ∃ block, g.blocks[p]? = some block :=
    ⟨_, List.getElem?_eq_getElem (sound'.inside p (by simp))⟩
  have same : held { g with blocks := Counted.free g.blocks p } M = held g M :=
    held_modify at' rfl M
  apply inv.of_blocks
  · rw [held_jobs, dying_jobs, same]
    simpa using sound'.free
  · exact inv.origin_modify fun _ => rfl
  · intro v
    rfl
  · intro v todo news made member
    cases member

/-- A reference is taken by who has one. -/
theorem Inv.held_take (inv : Inv g M) (has : p ∈ held g M) (N : Multiset Job) :
    held { g with blocks := take g.blocks p } N = held g N := by
  obtain ⟨block, at', positive, -⟩ := inv.sound.alive has
  exact held_modify at' (originOf_counted positive (by omega)) N

theorem Inv.holds_todo {part : Part} {todo : List (Part × Nat)} {news : Nat} {made : List Nat}
    (inv : Inv g M) (member : .merge v ((part, p) :: todo) news made ∈ M) : p ∈ held g M := by
  obtain ⟨version, at', inside⟩ := inv.merges v _ news made member
  exact holds_entries at' (inv.in_use at' member (if_pos rfl)) (inside _ List.mem_cons_self)

theorem Inv.keep {todo : List (Part × Nat)} {news : Nat} {made : List Nat}
    (inv : Inv g (.merge v ((.keep, p) :: todo) news made ::ₘ M)) :
    Inv { g with blocks := take g.blocks p }
      (([.merge v todo news (made ++ [p])] : List Job) + M) := by
  have has := inv.holds_todo (Multiset.mem_cons_self _ _)
  have taken := inv.sound.take has
  rw [held_cons, Multiset.map_cons, Multiset.sum_cons] at taken
  apply inv.of_blocks
  · rw [held_jobs, dying_jobs, inv.held_take has]
    have more : ([Job.merge v todo news (made ++ [p])].map Job.holds).sum + held g M =
        p ::ₘ ((made : Multiset Nat) + held g M) := by
      rw [List.map_singleton, List.sum_singleton, Job.holds, ← Multiset.coe_add,
        Multiset.coe_singleton, add_assoc, Multiset.singleton_add, Multiset.add_cons]
    rw [more]
    exact taken
  · exact inv.origin_modify fun _ => rfl
  · intro w
    rfl
  · intro w todo' news' made' member
    cases List.mem_singleton.mp member
    exact ⟨_, _, _, rfl, List.subset_cons_self _ _⟩

theorem held_make (value : Option Nat) (N : Multiset Job) :
    held { g with blocks := make g.blocks value } N =
      (value.toList : Multiset Nat) + held g N := by
  have first : originOf ⟨1, value, 0⟩ = value.toList := if_pos Int.one_pos
  rw [held, held, make, List.map_append, List.sum_append, List.map_singleton, List.sum_singleton,
    first]
  abel

theorem origin_make {blocks : Store (Option Nat)} {value : Option Nat}
    (origin : FlatOriginals blocks)
    (root : ∀ o ∈ value, ∃ block : Object (Option Nat), blocks[o]? = some block ∧
      block.value = none) : FlatOriginals (make blocks value) := by
  intro p o copy at' is
  obtain ⟨block, there, none⟩ : ∃ block : Object (Option Nat), blocks[o]? = some block ∧
      block.value = none := by
    rcases make_cases at' with ⟨-, found⟩ | ⟨rfl, rfl⟩
    · exact origin p o copy found is
    · exact root o is
  refine ⟨block, ?_, none⟩
  rw [make, List.getElem?_append_left (List.getElem?_eq_some_iff.mp there).1]
  exact there

/-- The original that a copy of a block gets is referred to, as the block is. -/
theorem Inv.holds_original (inv : Inv g M) (has : p ∈ held g M) {block : Object (Option Nat)}
    (at' : g.blocks[p]? = some block) : block.value.getD p ∈ held g M := by
  obtain ⟨block', found, positive, -⟩ := inv.sound.alive has
  cases at'.symm.trans found
  cases value : block.value with
  | none => exact has
  | some o =>
    obtain ⟨rest, sum, -⟩ := sum_modify originOf at'
    rw [held, sum, originOf, if_pos positive, value]
    simp

theorem Inv.root_original (inv : Inv g M) {block : Object (Option Nat)}
    (at' : g.blocks[p]? = some block) : ∃ original : Object (Option Nat),
      g.blocks[block.value.getD p]? = some original ∧ original.value = none := by
  cases value : block.value with
  | none => exact ⟨block, at', value⟩
  | some o => exact inv.origin p o block at' value

theorem Inv.write {todo : List (Part × Nat)} {news : Nat} {made : List Nat}
    {block : Object (Option Nat)} (inv : Inv g (.merge v ((.write, p) :: todo) news made ::ₘ M))
    (at' : g.blocks[p]? = some block) :
    Inv { g with blocks := make (take g.blocks (block.value.getD p)) (some (block.value.getD p)) }
      (([.merge v todo news (made ++ [g.blocks.length])] : List Job) + M) := by
  have has := inv.holds_original (inv.holds_todo (Multiset.mem_cons_self _ _)) at'
  obtain ⟨original, there, root⟩ := inv.root_original at'
  have size : (take g.blocks (block.value.getD p)).length = g.blocks.length :=
    List.length_modify ..
  generalize block.value.getD p = o at *
  have copied := (inv.sound.take has).make (some o)
  rw [size, held_cons, Multiset.map_cons, Multiset.sum_cons] at copied
  apply inv.of_blocks
  · rw [held_jobs, dying_jobs]
    have more : ([Job.merge v todo news (made ++ [g.blocks.length])].map Job.holds).sum +
        held { g with blocks := make (take g.blocks o) (some o) } M =
        g.blocks.length ::ₘ o ::ₘ ((made : Multiset Nat) + held g M) := by
      have made' := held_make (g := { g with blocks := take g.blocks o }) (some o) M
      rw [inv.held_take has] at made'
      rw [made', List.map_singleton, List.sum_singleton, Job.holds, ← Multiset.coe_add]
      simp only [Option.toList_some, Multiset.coe_singleton, ← Multiset.singleton_add]
      abel
    rw [more]
    exact copied
  · refine origin_make (inv.origin_modify fun _ => rfl) ?_
    rintro _ ⟨⟩
    exact ⟨_, modify_self there, root⟩
  · intro w
    rfl
  · intro w todo' news' made' member
    cases List.mem_singleton.mp member
    exact ⟨_, _, _, rfl, List.subset_cons_self _ _⟩

theorem Inv.newBlock {news : Nat} {made : List Nat}
    (inv : Inv g (.merge v [] (news + 1) made ::ₘ M)) :
    Inv { g with blocks := make g.blocks none }
      (([.merge v [] news (made ++ [g.blocks.length])] : List Job) + M) := by
  have added := inv.sound.make none
  rw [held_cons, Multiset.map_cons, Multiset.sum_cons] at added
  apply inv.of_blocks
  · rw [held_jobs, dying_jobs, held_make]
    have more : ([Job.merge v [] news (made ++ [g.blocks.length])].map Job.holds).sum +
        (((none : Option Nat).toList : Multiset Nat) + held g M) =
        g.blocks.length ::ₘ ((made : Multiset Nat) + held g M) := by
      rw [List.map_singleton, List.sum_singleton, Job.holds, ← Multiset.coe_add]
      simp only [Option.toList_none, Multiset.coe_nil, Multiset.coe_singleton,
        ← Multiset.singleton_add]
      abel
    rw [more]
    exact added
  · apply origin_make inv.origin
    rintro _ ⟨⟩
  · intro w
    rfl
  · intro w todo' news' made' member
    cases List.mem_singleton.mp member
    exact ⟨_, _, _, rfl, List.Subset.refl _⟩

/-- mem_block_ref_dec of a block that is still referred to, or of the last reference to it. -/
theorem Inv.memBlockRefDec (inv : Inv g (.memBlockRefDec p ::ₘ M))
    (acted : memBlockRefDec g p = some (g', jobs)) : Inv g' (jobs + M) := by
  have sound := inv.sound
  have before : held g (.memBlockRefDec p ::ₘ M) = p ::ₘ held g M := held_cons
  have has : p ∈ held g (.memBlockRefDec p ::ₘ M) := before ▸ Multiset.mem_cons_self _ _
  obtain ⟨block, at', positive, -⟩ := sound.alive has
  have count := sound.count p block at'
  rw [before, Multiset.count_cons_self] at count
  have dropped := (before ▸ sound).drop
  simp only [BlockShare.memBlockRefDec, at'] at acted
  cases acted
  have dying : ((Job.memBlockRefDec p ::ₘ M).map Job.dying).sum = (M.map Job.dying).sum := by
    rw [Multiset.map_cons, Multiset.sum_cons]
    exact zero_add _
  rw [dying] at dropped
  apply inv.of_blocks
  · by_cases last : block.count - 1 = 0
    · have none_left : p ∉ held g M := Multiset.count_eq_zero.mp (by omega)
      rw [if_neg none_left] at dropped
      rw [if_pos last, held_jobs, dying_jobs]
      have passed : ((lastRef block.value p).map Job.holds).sum +
          held { g with blocks := drop g.blocks p } M = held g M := by
        obtain ⟨rest, sum, changed⟩ := sum_modify originOf at'
        have after : originOf (block.counted (-1)) = 0 := by
          have zero : ¬ 0 < block.count + -1 := by omega
          rw [originOf, Object.counted, if_neg zero]
        have nothing : (Job.free p).holds = 0 := rfl
        rw [lastRef, List.map_append, List.sum_append, holds_decs, held, held, drop, changed,
          after, sum, originOf, if_pos positive, List.map_singleton, List.sum_singleton, nothing]
        abel
      have dies : ((lastRef block.value p).map Job.dying).sum = {p} := by
        rw [lastRef, List.map_append, List.sum_append, dying_decs, List.map_singleton,
          List.sum_singleton]
        exact zero_add _
      rw [passed, dies, Multiset.singleton_add]
      exact dropped
    · have more : p ∈ held g M := Multiset.count_pos.mp (by omega)
      have same : held { g with blocks := drop g.blocks p } M = held g M :=
        held_modify at' (originOf_counted positive (by omega)) M
      rw [if_pos more] at dropped
      rw [if_neg last, held_jobs, dying_jobs, same]
      simpa using dropped
  · exact inv.origin_modify fun _ => rfl
  · intro w
    by_cases last : block.count - 1 = 0
    · rw [if_pos last, lastRef, List.map_append, List.sum_append, uses_decs]
      rfl
    · rw [if_neg last]
      rfl
  · intro w todo' news' made' member
    by_cases last : block.count - 1 = 0
    · rw [if_pos last] at member
      simp [lastRef] at member
    · rw [if_neg last] at member
      cases member

/-- A step that changes one version. -/
theorem Inv.of_version (inv : Inv g (job ::ₘ M)) {version version' : Version}
    (at' : g.versions[v]? = some version) (order : version'.orderId = version.orderId)
    (entries : version'.entries + (jobs.map Job.holds).sum = version.entries + job.holds)
    (dying : (jobs.map Job.dying).sum = job.dying)
    (users : ∀ w, (jobs.map (Job.uses w)).sum + (if w = v then version.users else 0) =
      job.uses w + if w = v then version'.users else 0)
    (closed : version'.status = .closed → version'.users = 0)
    (old : version'.status = .old → 0 < version'.users)
    (merges : ∀ w todo news made, .merge w todo news made ∈ jobs →
      w = v ∧ ∀ x ∈ todo, x.2 ∈ version.orderId) :
    Inv (g.setVersion v version') (jobs + M) := by
  have kept : ∀ (w : Nat) (before : Version), g.versions[w]? = some before →
      ∃ after : Version, (g.setVersion v version').versions[w]? = some after ∧
        after.orderId = before.orderId := by
    intro w before found
    by_cases here : v = w
    · subst here
      cases at'.symm.trans found
      exact ⟨version', modify_self at', order⟩
    · exact ⟨before, (modify_other here).trans found, rfl⟩
  have status : ∀ after ∈ (g.setVersion v version').versions,
      after = version' ∨ after ∈ g.versions := by
    intro after member
    obtain ⟨w, found⟩ := List.mem_iff_getElem?.mp member
    obtain ⟨before, was, ⟨-, rfl⟩ | ⟨-, rfl⟩⟩ := modify_cases found
    · exact .inl rfl
    · exact .inr (List.mem_of_getElem? was)
  constructor
  · have same : held (g.setVersion v version') (jobs + M) = held g (job ::ₘ M) := by
      obtain ⟨rest, sum, changed⟩ := sum_modify Version.entries at'
      rw [held_jobs, held_cons, held, held, State.setVersion, changed, sum]
      calc _ = version'.entries + (jobs.map Job.holds).sum +
            (rest + (g.blocks.map originOf).sum + (M.map Job.holds).sum) := by abel
        _ = _ := by
          rw [entries]
          abel
    rw [same, dying_jobs, dying, ← Multiset.sum_cons, ← Multiset.map_cons]
    exact inv.sound
  · exact inv.origin
  · intro w
    have before := inv.users w
    have change := users w
    rw [Multiset.map_cons, Multiset.sum_cons] at before
    rw [uses_jobs]
    by_cases here : w = v
    · subst here
      rw [at'] at before
      rw [State.setVersion, modify_self at']
      rw [if_pos rfl, if_pos rfl] at change
      change _ = version.users at before
      change _ = version'.users
      omega
    · rw [State.setVersion, modify_other (Ne.symm here), ← before]
      rw [if_neg here, if_neg here] at change
      omega
  · intro after member
    rcases status after member with rfl | other
    · exact closed
    · exact inv.closed after other
  · intro after member
    rcases status after member with rfl | other
    · exact old
    · exact inv.old after other
  · intro w todo news made member
    rcases Multiset.mem_add.mp member with own | other
    · obtain ⟨rfl, inside⟩ := merges w todo news made own
      exact ⟨version', modify_self at', order ▸ inside⟩
    · obtain ⟨before, found, inside⟩ :=
        inv.merges w todo news made (Multiset.mem_cons_of_mem other)
      obtain ⟨after, there, same⟩ := kept w before found
      exact ⟨after, there, same ▸ inside⟩

/-- inc_version_user_num of a version that is not closed. -/
theorem Inv.incUser {start : Version → List Job} (inv : Inv g (job ::ₘ M))
    (acted : incUser g v start = some (g', jobs))
    (holds : ∀ version, ((start version).map Job.holds).sum = job.holds)
    (dying : ∀ version, ((start version).map Job.dying).sum = job.dying)
    (uses : ∀ version w, ((start version).map (Job.uses w)).sum =
      job.uses w + if w = v then 1 else 0)
    (idle : job.holds = 0 ∧ job.dying = 0 ∧ ∀ w, job.uses w = 0)
    (merges : ∀ version w todo news made, .merge w todo news made ∈ start version →
      w = v ∧ ∀ x ∈ todo, x.2 ∈ version.orderId) : Inv g' (jobs + M) := by
  unfold BlockShare.incUser at acted
  cases at' : g.versions[v]? with
  | none => simp [at'] at acted
  | some version =>
    simp only [at'] at acted
    by_cases closed : version.status = .closed
    · rw [if_pos closed] at acted
      cases acted
      exact inv.of_jobs idle.1.symm idle.2.1.symm (fun w => (idle.2.2 w).symm)
        fun w todo news made member => by cases member
    · rw [if_neg closed] at acted
      cases acted
      apply inv.of_version at'
      · rfl
      · rw [holds]
        rfl
      · exact dying version
      · intro w
        rw [uses]
        dsimp only
        split <;> omega
      · intro shut
        exact absurd shut closed
      · intro _
        exact Nat.succ_pos _
      · exact merges version

theorem Inv.decUser (inv : Inv g (.decVersionUserNum v ::ₘ M))
    (acted : decUser g v = some (g', jobs)) : Inv g' (jobs + M) := by
  unfold BlockShare.decUser at acted
  cases at' : g.versions[v]? with
  | none => simp [at'] at acted
  | some version =>
    simp only [at'] at acted
    have used : 0 < version.users := by
      have users := inv.users v
      rw [at', Multiset.map_cons, Multiset.sum_cons, Job.uses, if_pos rfl] at users
      change _ = version.users at users
      omega
    have opened := inv.in_use at' (Multiset.mem_cons_self _ _) (if_pos rfl)
    by_cases last : version.users = 1 ∧ version.status ≠ .normal
    · rw [if_pos last] at acted
      cases acted
      apply inv.of_version at'
      · rfl
      · rw [versionCloseFunc, holds_decs, Version.entries, Version.entries, if_pos rfl,
          if_neg opened]
        exact add_comm _ _
      · exact dying_decs _
      · intro w
        rw [versionCloseFunc, uses_decs, last.1]
        change _ = (if v = w then 1 else 0) + _
        dsimp only
        split <;> split <;> omega
      · intro _
        rfl
      · rintro ⟨⟩
      · intro w todo news made member
        simp [versionCloseFunc] at member
    · rw [if_neg last] at acted
      cases acted
      apply inv.of_version at'
      · rfl
      · rfl
      · rfl
      · intro w
        change 0 + _ = (if v = w then 1 else 0) + _
        dsimp only
        split <;> split <;> omega
      · intro shut
        exact absurd shut opened
      · intro old
        have several : version.users ≠ 1 := by
          intro one
          refine last ⟨one, ?_⟩
          intro normal
          rw [normal] at old
          cases old
        change 0 < version.users - 1
        omega
      · intro w todo news made member
        cases member

theorem Inv.setVersionStatusOld (inv : Inv g (.setVersionStatusOld v ::ₘ M))
    (acted : setVersionStatusOld g v = some (g', jobs)) : Inv g' (jobs + M) := by
  unfold BlockShare.setVersionStatusOld at acted
  cases at' : g.versions[v]? with
  | none => simp [at'] at acted
  | some version =>
    simp only [at'] at acted
    by_cases normal : version.status = .normal
    · rw [if_pos normal] at acted
      have opened : version.status ≠ .closed := by
        rw [normal]
        exact Status.noConfusion
      by_cases unused : version.users = 0
      · rw [if_pos unused] at acted
        cases acted
        apply inv.of_version at'
        · rfl
        · rw [versionCloseFunc, holds_decs, Version.entries, Version.entries, if_pos rfl,
            if_neg opened]
          exact add_comm _ _
        · exact dying_decs _
        · intro w
          rw [versionCloseFunc, uses_decs]
          rfl
        · intro _
          exact unused
        · rintro ⟨⟩
        · intro w todo news made member
          simp [versionCloseFunc] at member
      · rw [if_neg unused] at acted
        cases acted
        apply inv.of_version at'
        · rfl
        · rw [Version.entries, Version.entries, if_neg Status.noConfusion, if_neg opened]
          rfl
        · rfl
        · intro w
          rfl
        · rintro ⟨⟩
        · intro _
          exact Nat.pos_of_ne_zero unused
        · intro w todo news made member
          cases member
    · rw [if_neg normal] at acted
      cases acted
      exact inv.of_jobs rfl rfl (fun _ => rfl) fun w todo news made member => by cases member

/-- The new version has the references that its call has taken. -/
theorem Inv.publish {made : List Nat} (inv : Inv g (.merge v [] 0 made ::ₘ M)) :
    Inv { g with versions := g.versions ++ [⟨made, .normal, 0⟩] }
      (([.decVersionUserNum v] : List Job) + M) := by
  constructor
  · have same : held { g with versions := g.versions ++ [⟨made, .normal, 0⟩] }
        (([.decVersionUserNum v] : List Job) + M) = held g (.merge v [] 0 made ::ₘ M) := by
      have own : Version.entries ⟨made, .normal, 0⟩ = made := if_neg Status.noConfusion
      have nothing : (Job.decVersionUserNum v).holds = 0 := rfl
      rw [held_jobs, held_cons, List.map_singleton, List.sum_singleton, nothing, held, held,
        List.map_append, List.sum_append, List.map_singleton, List.sum_singleton, own, Job.holds]
      abel
    rw [same, dying_jobs]
    have sound := inv.sound
    rw [Multiset.map_cons, Multiset.sum_cons] at sound
    exact sound
  · exact inv.origin
  · intro w
    have before := inv.users w
    rw [Multiset.map_cons, Multiset.sum_cons] at before
    rw [uses_jobs]
    change (if v = w then 1 else 0) + _ = _ at before
    change (if v = w then 1 else 0) + _ = _
    rw [before]
    by_cases old : w < g.versions.length
    · rw [List.getElem?_append_left old]
    · rw [List.getElem?_append_right (Nat.le_of_not_lt old), List.getElem?_singleton,
        List.getElem?_eq_none (Nat.le_of_not_lt old)]
      split <;> rfl
  · intro version member
    rcases List.mem_append.mp member with before | new
    · exact inv.closed version before
    · rw [List.mem_singleton.mp new]
      rintro ⟨⟩
  · intro version member
    rcases List.mem_append.mp member with before | new
    · exact inv.old version before
    · rw [List.mem_singleton.mp new]
      rintro ⟨⟩
  · intro w todo news made' member
    rcases Multiset.mem_add.mp member with own | other
    · cases List.mem_singleton.mp own
    · obtain ⟨version, at', inside⟩ := inv.merges w todo news made' (Multiset.mem_cons_of_mem other)
      refine ⟨version, ?_, inside⟩
      rw [List.getElem?_append_left (List.getElem?_eq_some_iff.mp at').1]
      exact at'

/-- The error path drops what was taken. -/
theorem Inv.failed {todo : List (Part × Nat)} {news : Nat} {made : List Nat}
    (inv : Inv g (.merge v todo news made ::ₘ M)) : Inv g (failed v made + M) := by
  apply inv.of_jobs
  · rw [BlockShare.failed, List.map_append, List.sum_append, holds_decs]
    exact add_zero _
  · rw [BlockShare.failed, List.map_append, List.sum_append, dying_decs]
    rfl
  · intro w
    rw [BlockShare.failed, List.map_append, List.sum_append, uses_decs]
    exact zero_add _
  · intro w todo' news' made' member
    simp [BlockShare.failed] at member

theorem Inv.mergeStep {todo : List (Part × Nat)} {news : Nat} {made : List Nat}
    (inv : Inv g (.merge v todo news made ::ₘ M))
    (acted : mergeStep g v news made todo = some (g', jobs)) : Inv g' (jobs + M) := by
  cases todo with
  | nil =>
    cases news with
    | zero =>
      cases acted
      exact inv.publish
    | succ n =>
      cases acted
      exact inv.newBlock
  | cons first todo =>
    obtain ⟨part, p⟩ := first
    cases part with
    | del =>
      cases acted
      apply inv.of_jobs _ rfl fun _ => rfl
      · intro w todo' news' made' member
        cases List.mem_singleton.mp member
        exact ⟨_, _, _, rfl, List.subset_cons_self _ _⟩
      · rw [List.map_singleton, List.sum_singleton, Job.holds, Job.holds]
    | keep =>
      cases acted
      exact inv.keep
    | write =>
      cases at' : g.blocks[p]? with
      | none => simp [BlockShare.mergeStep, at'] at acted
      | some block =>
        simp only [BlockShare.mergeStep, at'] at acted
        cases acted
        exact inv.write at'

/-- A call that starts has no reference yet. -/
theorem Inv.start (inv : Inv g M) (e : Entry) : Inv g (enter e + M) := by
  have holds : ((enter e).map Job.holds).sum = 0 := by cases e <;> rfl
  have dying : ((enter e).map Job.dying).sum = 0 := by cases e <;> rfl
  have uses : ∀ v, ((enter e).map (Job.uses v)).sum = 0 := by
    intro v
    cases e <;> rfl
  constructor
  · rw [held_jobs, dying_jobs, holds, dying, zero_add, zero_add]
    exact inv.sound
  · exact inv.origin
  · intro v
    rw [uses_jobs, uses, zero_add]
    exact inv.users v
  · exact inv.closed
  · exact inv.old
  · intro v todo news made member
    rcases Multiset.mem_add.mp member with own | other
    · cases e <;> cases List.mem_singleton.mp own
    · exact inv.merges v todo news made other

/-- What a job is about to touch is there. -/
theorem Inv.touched (inv : Inv g M) (member : job ∈ M) (touches : p ∈ job.touches g) :
    ∃ block ∈ g.blocks[p]?, block.frees = 0 := by
  have found : p ∈ held g M → ∃ block ∈ g.blocks[p]?, block.frees = 0 := by
    intro has
    obtain ⟨block, at', -, unfreed, -⟩ := inv.sound.alive has
    exact ⟨block, at', unfreed⟩
  cases job with
  | createNewVersion v parts news => cases touches
  | merge v todo news made =>
    cases todo with
    | nil => cases touches
    | cons first todo =>
      obtain ⟨part, q⟩ := first
      have has := inv.holds_todo member
      cases part with
      | del => cases touches
      | keep =>
        cases List.mem_singleton.mp touches
        exact found has
      | write =>
        rcases List.mem_cons.mp touches with rfl | original
        · exact found has
        · obtain ⟨block, at', is⟩ := Option.bind_eq_some_iff.mp (Option.mem_toList.mp original)
          have refers := inv.holds_original has at'
          rw [is] at refers
          exact found refers
  | incVersionUserNum v => cases touches
  | useing v =>
    cases at' : g.versions[v]? with
    | none =>
      rw [Job.touches, at'] at touches
      cases touches
    | some version =>
      rw [Job.touches, at'] at touches
      exact found (holds_entries at' (inv.in_use at' member (if_pos rfl)) touches)
  | decVersionUserNum v => cases touches
  | setVersionStatusOld v => cases touches
  | memBlockRefDec q =>
    cases List.mem_singleton.mp touches
    apply found
    obtain ⟨rest, rfl⟩ := Multiset.exists_cons_of_mem member
    rw [held_cons]
    exact Multiset.mem_add.mpr (.inl (Multiset.mem_singleton_self _))
  | free q =>
    cases List.mem_singleton.mp touches
    obtain ⟨rest, rfl⟩ := Multiset.exists_cons_of_mem member
    have dies : p ∈ ((Job.free p ::ₘ rest).map Job.dying).sum := by
      rw [Multiset.map_cons, Multiset.sum_cons]
      exact Multiset.mem_add.mpr (.inl (Multiset.mem_singleton_self _))
    have inside := inv.sound.inside p (Multiset.mem_add.mpr (.inr dies))
    have at' := List.getElem?_eq_getElem inside
    have frees := inv.sound.frees p _ at'
    have one := Multiset.count_pos.mpr dies
    refine ⟨g.blocks[p], at', ?_⟩
    split at frees <;> omega

end MoonInWater.Sync.BlockShare
