import MoonInWater.Dns.Model
import Mathlib.Data.List.Nodup
import Mathlib.Tactic.Common

/-! The cache against the callbacks that are still to come, over single sections. -/
namespace MoonInWater.Dns
open RingBuffer (TimeVal)
variable {Q A : Type} {g g' : DnsPrivate Q A} {d e : Nat} {due due' : Nat → Nat} {room room' : Int}

/-- A domain of the table with `due` callbacks to come. -/
structure Entry (g : DnsPrivate Q A) (due d : Nat) : Prop where
  range : 1 ≤ (g.domains d).status ∧ (g.domains d).status ≤ 5
  querying : (g.domains d).status = domainQuerying ∨ (g.domains d).status = domainNewQuerying →
    due = 2
  query1 : (g.domains d).status = domainQuery1 ∨ (g.domains d).status = domainNewQuery1 → due = 1
  query2 : (g.domains d).status = domainQuery2 → due = 0 ∧ (g.domains d).queries = []
  aged : d ∈ g.age ↔ domainQuery2 ≤ (g.domains d).status
  addrs : domainQuery2 ≤ (g.domains d).status → (g.domains d).pAddrs.isSome

/-- The callbacks to come at each status. -/
theorem Entry.cases {n : Nat} (entry : Entry g n d) :
    ((g.domains d).status = 1 ∨ (g.domains d).status = 4) ∧ n = 2 ∨
    ((g.domains d).status = 2 ∨ (g.domains d).status = 5) ∧ n = 1 ∨
    (g.domains d).status = 3 ∧ n = 0 ∧ (g.domains d).queries = [] := by
  obtain ⟨low, high⟩ := entry.range
  by_cases done : (g.domains d).status = 3
  · exact .inr (.inr ⟨done, entry.query2 done⟩)
  · by_cases first : (g.domains d).status = 1 ∨ (g.domains d).status = 4
    · exact .inl ⟨first, entry.querying first⟩
    · have second : (g.domains d).status = 2 ∨ (g.domains d).status = 5 := by omega
      exact .inr (.inl ⟨second, entry.query1 second⟩)

theorem Entry.of_cases {n : Nat} {v : Int} (status : (g.domains d).status = v)
    (counts : (v = 1 ∨ v = 4) ∧ n = 2 ∨ (v = 2 ∨ v = 5) ∧ n = 1 ∨
      v = 3 ∧ n = 0 ∧ (g.domains d).queries = [])
    (aged : d ∈ g.age ↔ 3 ≤ v) (addrs : 3 ≤ v → (g.domains d).pAddrs.isSome) : Entry g n d := by
  subst status
  refine ⟨by omega, fun status => ?_, fun status => ?_, fun status => ?_, aged, addrs⟩
  · have first : (g.domains d).status = 1 ∨ (g.domains d).status = 4 := status
    omega
  · have second : (g.domains d).status = 2 ∨ (g.domains d).status = 5 := status
    omega
  · have done : (g.domains d).status = 3 := status
    rcases counts with ⟨other, _⟩ | ⟨other, _⟩ | ⟨_, rest⟩
    · omega
    · omega
    · exact rest

/-- The domain has left the table for good. -/
def Doomed (g : DnsPrivate Q A) (d : Nat) : Prop := d ∉ g.table ∧ d < g.fresh

/-- The table and the age list, with `room` for the latter. -/
structure CacheInv (room : Int) (g : DnsPrivate Q A) (due : Nat → Nat) : Prop where
  entries : ∀ d ∈ g.table, Entry g (due d) d
  outside : ∀ d ∉ g.table, due d = 0 ∧ (g.domains d).queries = [] ∧ d ∉ g.age
  distinct : g.table.Nodup
  once : g.age.Nodup
  num : g.domainNum = g.age.length
  le : g.domainNum ≤ room
  known : ∀ d ∈ g.table, d < g.fresh
  freed : ∀ d, (g.domains d).freed = true → Doomed g d

/-- The table only takes in new domains. -/
def Grows (g g' : DnsPrivate Q A) : Prop :=
  g.fresh ≤ g'.fresh ∧ ∀ d ∈ g'.table, d ∈ g.table ∨ g.fresh ≤ d

theorem Grows.refl (g : DnsPrivate Q A) : Grows g g := ⟨Nat.le_refl _, fun _ => .inl⟩

theorem Grows.trans {g'' : DnsPrivate Q A} (first : Grows g g') (second : Grows g' g'') :
    Grows g g'' := by
  refine ⟨first.1.trans second.1, fun d member => ?_⟩
  rcases second.2 d member with old | new
  · exact first.2 d old
  · exact .inr (first.1.trans new)

theorem Doomed.mono (doomed : Doomed g d) (grows : Grows g g') : Doomed g' d := by
  refine ⟨fun member => ?_, Nat.lt_of_lt_of_le doomed.2 grows.1⟩
  rcases grows.2 d member with old | new
  · exact doomed.1 old
  · exact absurd doomed.2 (Nat.not_lt.mpr new)

/-- An entry reads the status, the addresses and the queries of its own domain. -/
theorem Entry.congr {n : Nat} (entry : Entry g n d)
    (status : (g'.domains d).status = (g.domains d).status)
    (pAddrs : (g'.domains d).pAddrs = (g.domains d).pAddrs)
    (queries : (g.domains d).queries = [] → (g'.domains d).queries = [])
    (age : d ∈ g'.age ↔ d ∈ g.age) : Entry g' n d where
  range := by rw [status]; exact entry.range
  querying := by rw [status]; exact entry.querying
  query1 := by rw [status]; exact entry.query1
  query2 := by
    rw [status]
    exact fun done => (entry.query2 done).imp_right queries
  aged := by rw [age, status]; exact entry.aged
  addrs := by rw [status, pAddrs]; exact entry.addrs

/-- One domain of the table changes, and its place on the age list with it. -/
theorem CacheInv.change (inv : CacheInv room g due) (table : g'.table = g.table)
    (fresh : g'.fresh = g.fresh) (member : d ∈ g.table)
    (others : ∀ e ≠ d, g'.domains e = g.domains e ∧ (e ∈ g'.age ↔ e ∈ g.age) ∧ due' e = due e)
    (entry : Entry g' (due' d) d) (once : g'.age.Nodup) (num : g'.domainNum = g'.age.length)
    (le : g'.domainNum ≤ room') (alive : (g'.domains d).freed = (g.domains d).freed) :
    CacheInv room' g' due' where
  entries e inTable := by
    by_cases same : e = d
    · exact same ▸ entry
    · obtain ⟨kept, age, due⟩ := others e same
      rw [due]
      exact (inv.entries e (table ▸ inTable)).congr (by rw [kept]) (by rw [kept])
        (fun none => by rw [kept, none]) age
  outside e outTable := by
    rw [table] at outTable
    obtain ⟨kept, age, due⟩ := others e fun same => outTable (same ▸ member)
    rw [kept, age, due]
    exact inv.outside e outTable
  distinct := table ▸ inv.distinct
  once := once
  num := num
  le := le
  known e inTable := by
    rw [fresh]
    exact inv.known e (table ▸ inTable)
  freed e gone := by
    rw [Doomed, table, fresh]
    by_cases same : e = d
    · subst same
      exact inv.freed e (alive ▸ gone)
    · exact inv.freed e ((others e same).1 ▸ gone)

/-- A domain with nothing to come leaves the table and the age list. -/
theorem CacheInv.remove (inv : CacheInv room g due) (table : g'.table = g.table.erase d)
    (fresh : g'.fresh = g.fresh) (member : d ∈ g.table)
    (others : ∀ e ≠ d, g'.domains e = g.domains e ∧ (e ∈ g'.age ↔ e ∈ g.age) ∧ due' e = due e)
    (none : due' d = 0 ∧ (g'.domains d).queries = [] ∧ d ∉ g'.age) (once : g'.age.Nodup)
    (num : g'.domainNum = g'.age.length) (le : g'.domainNum ≤ room') :
    CacheInv room' g' due' ∧ Doomed g' d := by
  have gone : d ∉ g'.table := by
    rw [table]
    exact inv.distinct.not_mem_erase
  have kept : ∀ e ∈ g'.table, e ≠ d ∧ e ∈ g.table := fun e inTable =>
    inv.distinct.mem_erase_iff.mp (table ▸ inTable)
  have doomed : Doomed g' d := ⟨gone, fresh ▸ inv.known d member⟩
  refine ⟨⟨fun e inTable => ?_, fun e outTable => ?_, ?_, once, num, le, fun e inTable => ?_,
    fun e freed => ?_⟩, doomed⟩
  · obtain ⟨apart, old⟩ := kept e inTable
    obtain ⟨same, age, due⟩ := others e apart
    rw [due]
    exact (inv.entries e old).congr (by rw [same]) (by rw [same]) (fun none => by rw [same, none])
      age
  · by_cases same : e = d
    · exact same ▸ none
    · obtain ⟨kept, age, due⟩ := others e same
      rw [kept, age, due]
      refine inv.outside e fun old => outTable ?_
      rw [table]
      exact (List.mem_erase_of_ne same).mpr old
  · rw [table]
    exact inv.distinct.erase d
  · exact fresh ▸ inv.known e (kept e inTable).2
  · by_cases same : e = d
    · exact same ▸ doomed
    · obtain ⟨old, known⟩ := inv.freed e ((others e same).1 ▸ freed)
      exact ⟨fun inTable => old (kept e inTable).2, fresh ▸ known⟩

theorem CacheInv.dues (inv : CacheInv room g due) (same : ∀ d, due' d = due d) : CacheInv room g due' :=
  (funext same : due' = due) ▸ inv

/-- What no entry reads may change freely. -/
theorem CacheInv.congr (inv : CacheInv room g due) (table : g'.table = g.table) (age : g'.age = g.age)
    (fresh : g'.fresh = g.fresh) (num : g'.domainNum = g.domainNum)
    (same : ∀ d, (g'.domains d).status = (g.domains d).status ∧
      (g'.domains d).pAddrs = (g.domains d).pAddrs ∧
      ((g.domains d).queries = [] → (g'.domains d).queries = []) ∧
      ((g'.domains d).freed = true → (g.domains d).freed = true ∨ Doomed g d))
    (dues : ∀ d, due' d = due d) : CacheInv room g' due' where
  entries d member := by
    obtain ⟨status, pAddrs, queries, _⟩ := same d
    rw [dues]
    exact (inv.entries d (table ▸ member)).congr status pAddrs queries (by rw [age])
  outside d member := by
    obtain ⟨none, queries, old⟩ := inv.outside d (table ▸ member)
    rw [dues, age]
    exact ⟨none, (same d).2.2.1 queries, old⟩
  distinct := table ▸ inv.distinct
  once := age ▸ inv.once
  num := by rw [num, age]; exact inv.num
  le := num ▸ inv.le
  known d member := fresh ▸ inv.known d (table ▸ member)
  freed d gone := by
    rw [Doomed, table, fresh]
    exact ((same d).2.2.2 gone).elim (inv.freed d) id

@[simp] theorem setDomain_self (dom : Domain Q A) : (g.setDomain d dom).domains d = dom :=
  Function.update_self ..

theorem setDomain_of_ne (dom : Domain Q A) (apart : e ≠ d) :
    (g.setDomain d dom).domains e = g.domains e := Function.update_of_ne apart ..

/-- A domain on the age list is taken off it with one off domain_num. -/
theorem CacheInv.ageDel (inv : CacheInv room g due) (aged : d ∈ g.age) :
    (g.age.erase d).Nodup ∧ g.domainNum - 1 = (g.age.erase d).length ∧
      g.domainNum - 1 ≤ room - 1 ∧ d ∉ g.age.erase d ∧
      ∀ e ≠ d, (e ∈ g.age.erase d ↔ e ∈ g.age) := by
  have positive := List.length_pos_of_mem aged
  have num := inv.num
  have le := inv.le
  have length := List.length_erase_of_mem aged
  refine ⟨inv.once.erase d, by omega, by omega, inv.once.not_mem_erase, fun e apart => ?_⟩
  exact List.mem_erase_of_ne apart

/-- The callbacks that a section of moon_getaddrinfo asks for. -/
def Get.asks (c : Get Q A) (d : Nat) : Nat := if c.isNew ∧ c.domain = some d then 2 else 0

theorem stale_some {dom : Domain Q A} (has : dom.pAddrs.isSome) (flag : Bool)
    (tv : Option TimeVal) : ∃ old, stale flag dom tv = some old := by
  obtain ⟨addrs, has⟩ := Option.isSome_iff_exists.mp has
  unfold stale
  split
  · exact ⟨_, rfl⟩
  · exact ⟨_, rfl⟩
  · exact ⟨_, by rw [has, Option.map_some]⟩

/-- What a request leaves behind. -/
structure Requested (room : Int) (g : DnsPrivate Q A) (due : Nat → Nat) (d : Nat) (c : Get Q A)
    (r : DnsPrivate Q A × Get Q A) : Prop where
  table : r.1.table = g.table
  fresh : r.1.fresh = g.fresh
  domain : r.2.domain = c.domain
  query : r.2.query = c.query
  inv : CacheInv room r.1 fun e => due e + r.2.asks e
  waits : r.2.addQuery = true → (r.1.domains d).status ≠ domainQuery2
  news : r.2.isNew = true → r.2.newAddrs = none

theorem Get.asks_self {c : Get Q A} (domain : c.domain = some d) :
    c.asks d = if c.isNew then 2 else 0 := by
  simp [asks, domain]

theorem Get.asks_other {c : Get Q A} (domain : c.domain = some d) (apart : e ≠ d) :
    c.asks e = 0 := by
  refine if_neg fun both => apart ?_
  exact Option.some.inj (both.2.symm.trans domain)

theorem Get.asks_old {c : Get Q A} (old : c.isNew = false) : c.asks e = 0 :=
  if_neg fun both => by simp [old] at both

/-- The cache gives up what it holds: the domain leaves the age list. -/
theorem clear_inv (inv : CacheInv room g due) (member : d ∈ g.table) {c : Get Q A}
    (domain : c.domain = some d) (held : domainQuery2 ≤ (g.domains d).status)
    (isNew : c.isNew = true ↔ (g.domains d).status = domainQuery2) :
    CacheInv room (ageDel d (g.setDomain d { g.domains d with
      status := (g.domains d).status - domainQuery2 + if c.isNew then 1 else 0 }))
      (fun e => due e + c.asks e) := by
  have entry := inv.entries d member
  obtain ⟨once, num, le, gone, others⟩ := inv.ageDel (entry.aged.mpr held)
  refine inv.change rfl rfl member (fun e apart => ⟨setDomain_of_ne _ apart, others e apart, ?_⟩) ?_
    once num (le.trans (Int.sub_le_self room (by decide))) ?_
  · rw [Get.asks_other domain apart, Nat.add_zero]
  · rw [Get.asks_self domain]
    have counts := entry.cases
    simp only [domainQuery2] at held isNew ⊢
    refine .of_cases (congrArg Domain.status (setDomain_self _)) ?_ (iff_of_false gone ?_) ?_
    all_goals
      cases new : c.isNew
      all_goals
        simp only [new, if_true, Bool.false_eq_true, if_false, false_iff, true_iff] at isNew ⊢
        omega
  · simp [Dns.ageDel]

/-- A refresh beside what the cache holds. -/
theorem refresh_inv (inv : CacheInv room g due) (member : d ∈ g.table) {c : Get Q A}
    (domain : c.domain = some d) (held : domainQuery2 ≤ (g.domains d).status)
    (isNew : c.isNew = true ↔ (g.domains d).status = domainQuery2) :
    CacheInv room (g.setDomain d { g.domains d with
      status := (g.domains d).status + if c.isNew then 1 else 0 })
      (fun e => due e + c.asks e) := by
  have entry := inv.entries d member
  have counts := entry.cases
  have aged := entry.aged
  have addrs := entry.addrs held
  refine inv.change rfl rfl member (fun e apart => ⟨setDomain_of_ne _ apart, Iff.rfl, ?_⟩) ?_
    inv.once inv.num inv.le ?_
  · rw [Get.asks_other domain apart, Nat.add_zero]
  · rw [Get.asks_self domain]
    simp only [domainQuery2] at held isNew aged ⊢
    refine .of_cases (congrArg Domain.status (setDomain_self _)) ?_ ?_ ?_
    · cases new : c.isNew
      all_goals
        simp only [new, if_true, Bool.false_eq_true, if_false, false_iff, true_iff] at isNew ⊢
        omega
    · refine iff_of_true (aged.mpr held) ?_
      dsimp only
      split <;> omega
    · intro _
      simpa using addrs
  · simp

theorem request_spec {c : Get Q A} (inv : CacheInv room g due) (member : d ∈ g.table)
    (domain : c.domain = some d) (isNew : c.isNew = false) (addQuery : c.addQuery = false)
    (newAddrs : c.newAddrs = none) : ∃ r, request g c d = some r ∧ Requested room g due d c r := by
  have entry := inv.entries d member
  obtain ⟨low, high⟩ := entry.range
  have fresh : (g.domains d).status ≠ 0 := by omega
  simp only [request, if_neg fresh]
  by_cases first : (g.domains d).status = domainQuerying ∨ (g.domains d).status = domainQuery1
  · rw [if_pos first]
    refine ⟨_, rfl, rfl, rfl, rfl, rfl, ?_, fun _ => ?_, fun _ => newAddrs⟩
    · exact inv.dues fun e => congrArg (due e + ·) (Get.asks_old isNew)
    · intro done
      rw [done] at first
      exact absurd first (by decide)
  · have second : (g.domains d).status = domainQuery2 ∨ (g.domains d).status = domainNewQuerying ∨
        (g.domains d).status = domainNewQuery1 := by
      simp only [domainQuerying, domainQuery1, domainQuery2, domainNewQuerying,
        domainNewQuery1] at first ⊢
      omega
    have held : domainQuery2 ≤ (g.domains d).status := by
      simp only [domainQuery2, domainNewQuerying, domainNewQuery1] at second ⊢
      omega
    rw [if_neg first, if_pos second]
    obtain ⟨clear, clears⟩ := stale_some (entry.addrs held) c.clearCache c.tv
    obtain ⟨refresh, refreshes⟩ := stale_some (entry.addrs held) (!clear && c.dontUseCache) c.tv
    rw [clears, Option.bind_eq_bind, Option.bind_some, refreshes, Option.bind_some]
    cases clear with
    | true =>
      have after := clear_inv (c := { c with
        isNew := decide ((g.domains d).status = domainQuery2), addQuery := true })
        inv member domain held decide_eq_true_iff
      refine ⟨_, rfl, rfl, rfl, rfl, rfl, after, fun _ => ?_, fun _ => newAddrs⟩
      simp only [ageDel, setDomain_self, domainQuery2, decide_eq_true_eq]
      split <;> omega
    | false =>
      cases refresh with
      | true =>
        have after := refresh_inv (c := { c with
          isNew := decide ((g.domains d).status = domainQuery2), addQuery := true })
          inv member domain held decide_eq_true_iff
        refine ⟨_, rfl, rfl, rfl, rfl, rfl, after, fun _ => ?_, fun _ => newAddrs⟩
        simp only [setDomain_self, domainQuery2, decide_eq_true_eq]
        split <;> omega
      | false =>
        refine ⟨_, rfl, rfl, rfl, rfl, rfl, ?_, fun waits => ?_, fun new => ?_⟩
        · exact inv.dues fun e => congrArg (due e + ·) (Get.asks_old isNew)
        · cases addQuery.symm.trans waits
        · cases isNew.symm.trans new

/-- hash_search finds an entry, takes in a new one or fails. -/
theorem hashSearch_cases (alloc : Bool) (g : DnsPrivate Q A) (name : List Char) :
    hashSearch alloc g name = (g, none) ∨
    (∃ d ∈ g.table, hashSearch alloc g name = (g, some d)) ∨
    hashSearch alloc g name = ({ g.setDomain g.fresh (freshDomain name) with
      table := g.fresh :: g.table
      fresh := g.fresh + 1 }, some g.fresh) := by
  unfold hashSearch
  split
  next d found => exact .inr (.inl ⟨d, List.mem_of_find?_eq_some found, rfl⟩)
  next =>
    split
    · exact .inr (.inr rfl)
    · exact .inl rfl

/-- A new entry, asked for at once. -/
theorem CacheInv.insert (inv : CacheInv room g due) (table : g'.table = g.fresh :: g.table)
    (fresh : g'.fresh = g.fresh + 1) (age : g'.age = g.age) (num : g'.domainNum = g.domainNum)
    (others : ∀ e ≠ g.fresh, g'.domains e = g.domains e ∧ due' e = due e)
    (status : (g'.domains g.fresh).status = domainQuerying) (asked : due' g.fresh = 2)
    (alive : (g'.domains g.fresh).freed = false) : CacheInv room g' due' := by
  have unknown : g.fresh ∉ g.table := fun member => Nat.lt_irrefl _ (inv.known _ member)
  have notAged : g.fresh ∉ g.age := (inv.outside _ unknown).2.2
  have apart : ∀ e ∈ g.table, e ≠ g.fresh := fun e member same => unknown (same ▸ member)
  refine ⟨?_, fun e outTable => ?_, ?_, age ▸ inv.once, by rw [num, age]; exact inv.num,
    num ▸ inv.le, ?_, fun e gone => ?_⟩
  · rw [table, List.forall_mem_cons]
    constructor
    · exact .of_cases status (.inl ⟨.inl rfl, asked⟩) (iff_of_false (age ▸ notAged) (by decide))
        fun high => absurd high (by decide)
    · intro e member
      obtain ⟨same, dues⟩ := others e (apart e member)
      rw [dues]
      exact (inv.entries e member).congr (by rw [same]) (by rw [same])
        (fun none => by rw [same, none]) (by rw [age])
  · rw [table, List.mem_cons, not_or] at outTable
    obtain ⟨same, dues⟩ := others e outTable.1
    rw [same, dues, age]
    exact inv.outside e outTable.2
  · rw [table]
    exact List.nodup_cons.mpr ⟨unknown, inv.distinct⟩
  · rw [table, fresh, List.forall_mem_cons]
    exact ⟨Nat.lt_succ_self _, fun e member => Nat.lt_succ_of_lt (inv.known e member)⟩
  · have apart : e ≠ g.fresh := fun same => by
      rw [same, alive] at gone
      contradiction
    obtain ⟨old, known⟩ := inv.freed e ((others e apart).1 ▸ gone)
    rw [Doomed, table, fresh, List.mem_cons, not_or]
    exact ⟨⟨apart, old⟩, Nat.lt_succ_of_lt known⟩

section
variable [DecidableEq Q]

theorem addWaiting_inv (inv : CacheInv room g due) (member : d ∈ g.table)
    (open' : (g.domains d).status ≠ domainQuery2) (q : Q) : CacheInv room (addWaiting g q d) due := by
  have entry := inv.entries d member
  have same : (addWaiting g q d).domains d =
    { g.domains d with queries := q :: (g.domains d).queries } := setDomain_self _
  refine inv.change rfl rfl member (fun e apart => ⟨setDomain_of_ne _ apart, Iff.rfl, rfl⟩) ?_
    inv.once inv.num inv.le (by rw [same])
  refine ⟨?_, ?_, ?_, ?_, ?_, ?_⟩
  all_goals rw [same]
  · exact entry.range
  · exact entry.querying
  · exact entry.query1
  · exact fun done => absurd done open'
  · exact entry.aged
  · exact entry.addrs

theorem getSection_found {c c' : Get Q A} {alloc : Bool} {name : List Char}
    {g₁ g₂ : DnsPrivate Q A} (found : hashSearch alloc g name = (g₁, some d))
    (requested : request g₁ { c with domain := some d, initFail := false } d = some (g₂, c')) :
    getSection alloc g c name =
      some (if c'.addQuery then addWaiting g₂ c'.query d else g₂, c') := by
  simp only [getSection, found, requested, Option.bind_eq_bind, Option.bind_some]

/-- The section of moon_getaddrinfo keeps the cache, with what it asks for. -/
theorem getSection_spec {c : Get Q A} (alloc : Bool) (name : List Char) (inv : CacheInv room g due)
    (isNew : c.isNew = false) (addQuery : c.addQuery = false) (newAddrs : c.newAddrs = none) :
    ∃ r, getSection alloc g c name = some r ∧ Grows g r.1 ∧
      CacheInv room r.1 (fun e => due e + r.2.asks e) ∧
      (r.2.isNew = true → r.2.newAddrs = none ∧ r.2.domain.isSome) := by
  rcases hashSearch_cases alloc g name with failed | ⟨d, member, found⟩ | made
  · refine ⟨(g, c), by rw [getSection, failed], .refl g, ?_, fun new => ?_⟩
    · exact inv.dues fun e => congrArg (due e + ·) (Get.asks_old isNew)
    · cases isNew.symm.trans new
  · obtain ⟨⟨g₁, c₁⟩, requested, table, fresh, domain, query, after, waits, news⟩ :=
      request_spec (c := { c with domain := some d, initFail := false }) inv member rfl isNew
        addQuery newAddrs
    dsimp only at table fresh domain after waits news
    have isSome : c₁.domain.isSome := by rw [domain]; rfl
    have grows : Grows g g₁ := ⟨Nat.le_of_eq fresh.symm, fun e inTable => .inl (table ▸ inTable)⟩
    cases add : c₁.addQuery with
    | true =>
      refine ⟨(addWaiting g₁ c₁.query d, c₁), ?_, grows, ?_, fun new => ⟨news new, isSome⟩⟩
      · rw [getSection_found found requested, if_pos add]
      · exact addWaiting_inv after (table.symm ▸ member) (waits add) _
    | false =>
      refine ⟨(g₁, c₁), ?_, grows, after, fun new => ⟨news new, isSome⟩⟩
      rw [getSection_found found requested, if_neg (by simp [add])]
  · let g₂ : DnsPrivate Q A := { g.setDomain g.fresh (freshDomain name) with
      table := g.fresh :: g.table
      fresh := g.fresh + 1 }
    have new : g₂.domains g.fresh = freshDomain name := setDomain_self _
    let dom : Domain Q A := { freshDomain name with status := 1 }
    let asked : Get Q A :=
      { c with domain := some g.fresh, initFail := false, isNew := true, addQuery := true }
    have requested : request g₂ { c with domain := some g.fresh, initFail := false } g.fresh =
        some (g₂.setDomain g.fresh dom, asked) := by
      simp only [request, new, freshDomain, if_true]
      rfl
    have self : (g₂.setDomain g.fresh dom).domains g.fresh = dom := setDomain_self _
    have inv' : CacheInv room (g₂.setDomain g.fresh dom) fun e => due e + asked.asks e := by
      refine inv.insert rfl rfl rfl rfl (fun e apart => ⟨?_, ?_⟩) (by rw [self]) ?_ (by rw [self]; rfl)
      · exact (setDomain_of_ne _ apart).trans (setDomain_of_ne _ apart)
      · rw [Get.asks_other rfl apart, Nat.add_zero]
      · have unknown : g.fresh ∉ g.table := fun member => Nat.lt_irrefl _ (inv.known _ member)
        rw [(inv.outside _ unknown).1, Get.asks_self rfl]
        rfl
    refine ⟨(addWaiting (g₂.setDomain g.fresh dom) asked.query g.fresh, asked), ?_, ?_, ?_,
      fun _ => ⟨newAddrs, rfl⟩⟩
    · exact getSection_found made requested
    · refine ⟨Nat.le_succ _, fun e member => ?_⟩
      rcases List.mem_cons.mp member with same | old
      · exact .inr (Nat.le_of_eq same.symm)
      · exact .inl old
    · exact addWaiting_inv inv' List.mem_cons_self (by rw [self]; exact (by decide : (1 : Int) ≠ 3)) _

/-- What a section hands over to be freed. -/
def Dooms (g : DnsPrivate Q A) (del : Option Nat) : Prop := ∀ d ∈ del, Doomed g d

omit [DecidableEq Q] in
theorem evict_spec (inv : CacheInv (dnsCacheNum + 1) g due) (full : dnsCacheNum < g.domainNum) :
    CacheInv dnsCacheNum (evict g).1 due ∧ Grows g (evict g).1 ∧ Dooms (evict g).1 (evict g).2 := by
  cases age : g.age with
  | nil =>
    have num := inv.num
    rw [age] at num
    rw [num] at full
    exact absurd full (by decide)
  | cons old rest =>
    have aged : old ∈ g.age := by rw [age]; exact List.mem_cons_self
    have member : old ∈ g.table := by
      by_contra outTable
      exact (inv.outside old outTable).2.2 aged
    have entry := inv.entries old member
    have counts := entry.cases
    obtain ⟨once, num, le, gone, others⟩ := inv.ageDel aged
    have held := entry.aged.mp aged
    by_cases done : (g.domains old).status = domainQuery2
    · obtain ⟨none, queries⟩ := entry.query2 done
      have removed : CacheInv dnsCacheNum (hashDel old (ageDel old g)) due ∧
          Doomed (hashDel old (ageDel old g)) old :=
        inv.remove rfl rfl member (fun e apart => ⟨rfl, others e apart, rfl⟩)
          ⟨none, queries, gone⟩ once num (le.trans (Int.le_of_eq (Int.add_sub_cancel _ _)))
      have result : evict g = (hashDel old (ageDel old g), some old) := by
        simp only [evict, age]
        exact if_pos done
      rw [result]
      refine ⟨removed.1, ⟨Nat.le_refl _, fun e inTable => .inl ?_⟩, fun e same => ?_⟩
      · exact List.mem_of_mem_erase inTable
      · cases same
        exact removed.2
    · have result : evict g = ((ageDel old g).setDomain old { g.domains old with
          status := (g.domains old).status - domainQuery2 }, Option.none) := by
        simp only [evict, age]
        exact if_neg done
      rw [result]
      refine ⟨?_, ⟨Nat.le_refl _, fun e inTable => .inl inTable⟩, nofun⟩
      refine inv.change rfl rfl member
        (fun e apart => ⟨setDomain_of_ne _ apart, others e apart, rfl⟩) ?_ once num
        (le.trans (Int.le_of_eq (Int.add_sub_cancel _ _))) ?_
      · refine .of_cases (congrArg Domain.status (setDomain_self _)) ?_ ?_ ?_
        all_goals simp only [ageDel, domainQuery2] at held done ⊢
        · omega
        · exact iff_of_false gone (by omega)
        · omega
      · simp [ageDel]

/-- The domain is off the age list. -/
structure Off (room : Int) (d : Nat) (g g' : DnsPrivate Q A) : Prop where
  table : g'.table = g.table
  fresh : g'.fresh = g.fresh
  domains : g'.domains = g.domains
  off : d ∉ g'.age
  once : g'.age.Nodup
  num : g'.domainNum = g'.age.length
  le : g'.domainNum ≤ room
  others : ∀ e ≠ d, (e ∈ g'.age ↔ e ∈ g.age)

theorem complete_spec (now : TimeVal) (addrs : Option (Addrs A)) (inv : CacheInv dnsCacheNum g due)
    (member : d ∈ g.table) (off : Off dnsCacheNum d g g') :
    CacheInv dnsCacheNum (complete now g' d addrs).1 (Function.update due d 0) ∧
      Grows g (complete now g' d addrs).1 ∧
      Dooms (complete now g' d addrs).1 (complete now g' d addrs).2 := by
  have entry := inv.entries d member
  have self : (settle now g' d addrs).domains d = { g'.domains d with
    status := domainQuery2
    pAddrs := mergeAddrs now (g'.domains d).pNewAddrs addrs
    pNewAddrs := none
    queries := [] } := setDomain_self _
  have others : ∀ e ≠ d, (settle now g' d addrs).domains e = g.domains e := fun e apart =>
    (setDomain_of_ne _ apart).trans (congrFun off.domains e)
  have alive : ((settle now g' d addrs).domains d).freed = (g.domains d).freed := by
    rw [self, ← off.domains]
  have dues : ∀ e ≠ d, Function.update due d 0 e = due e := fun e apart =>
    Function.update_of_ne apart ..
  cases has : ((settle now g' d addrs).domains d).pAddrs.isSome with
  | false =>
    have removed : CacheInv dnsCacheNum (hashDel d (settle now g' d addrs))
        (Function.update due d 0) ∧ Doomed (hashDel d (settle now g' d addrs)) d :=
      inv.remove (congrArg (List.erase · d) off.table) off.fresh member
        (fun e apart => ⟨others e apart, off.others e apart, dues e apart⟩)
        ⟨Function.update_self .., by simp [hashDel, self], off.off⟩ off.once off.num off.le
    have result : complete now g' d addrs = (hashDel d (settle now g' d addrs), some d) :=
      if_neg (by rw [has]; exact Bool.false_ne_true)
    rw [result]
    refine ⟨removed.1, ⟨Nat.le_of_eq off.fresh.symm, fun e inTable => .inl ?_⟩, fun e same => ?_⟩
    · rw [← off.table]
      exact List.mem_of_mem_erase inTable
    · cases same
      exact removed.2
  | true =>
    have added : CacheInv (dnsCacheNum + 1) (ageAdd d (settle now g' d addrs))
        (Function.update due d 0) := by
      refine inv.change off.table off.fresh member
        (fun e apart => ⟨others e apart, ?_, dues e apart⟩) ?_ ?_ ?_ ?_ alive
      · simp only [ageAdd, List.mem_append, List.mem_singleton, apart, or_false]
        exact off.others e apart
      · refine .of_cases (congrArg Domain.status self) ?_ ?_ fun _ => has
        · exact .inr (.inr ⟨rfl, Function.update_self .., by simp [ageAdd, self]⟩)
        · exact iff_of_true (List.mem_append_right _ (List.mem_singleton_self d)) (Int.le_refl 3)
      · refine List.nodup_append.mpr ⟨off.once, List.nodup_singleton d, ?_⟩
        rintro e aged _ single rfl
        exact off.off (List.mem_singleton.mp single ▸ aged)
      · simp only [ageAdd, List.length_append, List.length_singleton]
        have num := off.num
        exact congrArg (· + 1) num
      · exact Int.add_le_add_right off.le 1
    have grows : Grows g (ageAdd d (settle now g' d addrs)) :=
      ⟨Nat.le_of_eq off.fresh.symm, fun e inTable => .inl (off.table ▸ inTable)⟩
    by_cases full : dnsCacheNum < (ageAdd d (settle now g' d addrs)).domainNum
    · have result : complete now g' d addrs = evict (ageAdd d (settle now g' d addrs)) :=
        (if_pos has).trans (if_pos full)
      obtain ⟨after, grows', dooms⟩ := evict_spec added full
      rw [result]
      exact ⟨after, grows.trans grows', dooms⟩
    · have result : complete now g' d addrs = (ageAdd d (settle now g' d addrs), none) :=
        (if_pos has).trans (if_neg full)
      rw [result]
      exact ⟨{ added with le := Int.not_lt.mp full }, grows, nofun⟩

omit [DecidableEq Q] in
/-- A domain with a callback to come is in the table. -/
theorem CacheInv.due_mem (inv : CacheInv room g due) (some : 0 < due d) : d ∈ g.table := by
  by_contra outTable
  exact Nat.ne_of_gt some (inv.outside d outTable).1

/-- A callback uses up one of those that are to come. -/
theorem callbackSection_spec (now : TimeVal) (addrs : Option (Addrs A))
    (inv : CacheInv dnsCacheNum g due) (coming : 0 < due d) :
    CacheInv dnsCacheNum (callbackSection now g d addrs).1 (Function.update due d (due d - 1)) ∧
      Grows g (callbackSection now g d addrs).1 ∧
      Dooms (callbackSection now g d addrs).1 (callbackSection now g d addrs).2 := by
  have member := inv.due_mem coming
  have entry := inv.entries d member
  have aged := entry.aged
  simp only [domainQuery2] at aged
  unfold callbackSection
  rcases entry.cases with ⟨first, two⟩ | ⟨second, one⟩ | ⟨_, none, _⟩
  · have querying : (g.domains d).status = domainQuerying ∨
        (g.domains d).status = domainNewQuerying := first
    simp only [if_pos querying]
    refine ⟨?_, ⟨Nat.le_refl _, fun e inTable => .inl inTable⟩, nofun⟩
    refine inv.change rfl rfl member (fun e apart => ⟨setDomain_of_ne _ apart, Iff.rfl,
      Function.update_of_ne apart ..⟩) ?_ inv.once inv.num inv.le (by rw [setDomain_self])
    rw [Function.update_self]
    refine .of_cases (congrArg Domain.status (setDomain_self _)) (.inr (.inl ⟨?_, ?_⟩)) ?_ ?_
    · exact first.imp (congrArg (· + 1)) (congrArg (· + 1))
    · omega
    · refine aged.trans ?_
      dsimp only
      omega
    · intro high
      rw [setDomain_self]
      refine entry.addrs ?_
      dsimp only [domainQuery2] at high ⊢
      omega
  · have querying : ¬ ((g.domains d).status = domainQuerying ∨
        (g.domains d).status = domainNewQuerying) := by
      simp only [domainQuerying, domainNewQuerying]
      omega
    rw [one]
    by_cases new : (g.domains d).status = domainNewQuery1
    · obtain ⟨once, num, le, gone, others⟩ := inv.ageDel (entry.aged.mpr (by rw [new]; decide))
      have off : Off dnsCacheNum d g (ageDel d g) :=
        ⟨rfl, rfl, rfl, gone, once, num, le.trans (by decide), others⟩
      simp only [if_neg querying, if_pos new]
      exact complete_spec now addrs inv member off
    · have plain : (g.domains d).status = domainQuery1 := second.resolve_right new
      have gone : d ∉ g.age := fun here => by
        have high := aged.mp here
        rw [plain] at high
        exact absurd high (by decide)
      have off : Off dnsCacheNum d g g :=
        ⟨rfl, rfl, rfl, gone, inv.once, inv.num, inv.le, fun _ _ => Iff.rfl⟩
      simp only [if_neg querying, if_neg new, if_pos plain]
      exact complete_spec now addrs inv member off
  · omega

omit [DecidableEq Q] in
theorem expire_cons {cut : TimeVal} {rest dels : List Nat} {addrs : Addrs A}
    (has : (g.domains d).pAddrs = some addrs) : expire cut (d :: rest) g dels =
      if compareTv addrs.tv cut ≤ 0 then
        if (g.domains d).status = domainQuery2 then
          expire cut rest (hashDel d (ageDel d g)) (d :: dels)
        else expire cut rest ((ageDel d g).setDomain d { g.domains d with
          status := (g.domains d).status - domainQuery2 }) dels
      else some (g, dels) :=
  congrArg (Option.bind · _) has

omit [DecidableEq Q] in
/-- The expiry pass never meets a domain without addresses. -/
theorem expire_spec (cut : TimeVal) (inv : CacheInv dnsCacheNum g due) {l dels : List Nat}
    (age : g.age = l) (doomed : ∀ d ∈ dels, Doomed g d) :
    ∃ r, expire cut l g dels = some r ∧ CacheInv dnsCacheNum r.1 due ∧ Grows g r.1 ∧
      ∀ d ∈ r.2, Doomed r.1 d := by
  induction l generalizing g dels with
  | nil => exact ⟨_, rfl, inv, .refl g, doomed⟩
  | cons d rest ih =>
    have aged : d ∈ g.age := by rw [age]; exact List.mem_cons_self
    have member : d ∈ g.table := by
      by_contra outTable
      exact (inv.outside d outTable).2.2 aged
    have entry := inv.entries d member
    have held := entry.aged.mp aged
    obtain ⟨addrs, has⟩ := Option.isSome_iff_exists.mp (entry.addrs held)
    obtain ⟨once, num, le, gone, others⟩ := inv.ageDel aged
    have le' := le.trans (by decide : dnsCacheNum - 1 ≤ dnsCacheNum)
    have head : g.age.erase d = rest := by rw [age, List.erase_cons_head]
    rw [expire_cons has]
    by_cases old : compareTv addrs.tv cut ≤ 0
    · rw [if_pos old]
      by_cases done : (g.domains d).status = domainQuery2
      · obtain ⟨none, queries⟩ := entry.query2 done
        have removed : CacheInv dnsCacheNum (hashDel d (ageDel d g)) due ∧
            Doomed (hashDel d (ageDel d g)) d :=
          inv.remove rfl rfl member (fun e apart => ⟨rfl, others e apart, rfl⟩)
            ⟨none, queries, gone⟩ once num le'
        obtain ⟨inv', doomed'⟩ := removed
        have grows : Grows g (hashDel d (ageDel d g)) :=
          ⟨Nat.le_refl _, fun e inTable => .inl (List.mem_of_mem_erase inTable)⟩
        rw [if_pos done]
        obtain ⟨r, ran, after, grows', all⟩ := ih inv' head (List.forall_mem_cons.mpr
          ⟨doomed', fun e member => (doomed e member).mono grows⟩)
        exact ⟨r, ran, after, grows.trans grows', all⟩
      · have counts := entry.cases
        have inv' : CacheInv dnsCacheNum ((ageDel d g).setDomain d { g.domains d with
            status := (g.domains d).status - domainQuery2 }) due := by
          refine inv.change rfl rfl member
            (fun e apart => ⟨setDomain_of_ne _ apart, others e apart, rfl⟩) ?_ once num le' ?_
          · refine .of_cases (congrArg Domain.status (setDomain_self _)) ?_ ?_ ?_
            all_goals simp only [domainQuery2] at held done ⊢
            · omega
            · exact iff_of_false gone (by omega)
            · omega
          · simp [ageDel]
        rw [if_neg done]
        obtain ⟨r, ran, after, grows, all⟩ := ih inv' head doomed
        exact ⟨r, ran, after, grows, all⟩
    · rw [if_neg old]
      exact ⟨_, rfl, inv, .refl g, doomed⟩

end

end MoonInWater.Dns
