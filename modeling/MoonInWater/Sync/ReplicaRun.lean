import MoonInWater.Sync.Replica

/-! The copies of a shadow over whole runs: a server makes versions of commits and updates between
its versions, and clients make versions of the updates that reach them. -/
namespace MoonInWater.Sync.Replica
open Pairs Commit UpdateSpan PointerSearch
open PointTable (VersionInfo)
variable {P Q : Type}

/-- The type of a block. -/
def kind (b : MemBlock) : Int × Int := (b.typeId, b.typeNum)

/-- The block of an entry of the order: mem_block_surface_dump copies the address and the type,
create_new_block sets the type. -/
inductive Placed (blocks : P → MemBlock) : AddrPair (Option (Made P)) → AddrPair P → Prop where
  | kept (id : Nat) (p : P) : Placed blocks ⟨id, some (.kept p)⟩ ⟨id, p⟩
  | dump {p q : P} (sameAddr : (blocks q).virtualAddr = (blocks p).virtualAddr)
      (sameKind : kind (blocks q) = kind (blocks p)) :
      Placed blocks ⟨(blocks q).id, some (.dump p)⟩ ⟨(blocks q).id, q⟩
  | created (q : P) :
      Placed blocks ⟨(blocks q).id, some (.created (blocks q).typeId (blocks q).typeNum)⟩
        ⟨(blocks q).id, q⟩

def isCreated (entry : AddrPair (Option (Made P))) : Bool :=
  match entry.addr with
  | some (.created _ _) => true
  | _ => false

/-- The blocks of an order: a new one has an address that no block in use has, nor another new
one. -/
structure Allocated (blocks : P → MemBlock) (used : List Nat) (order : Order P)
    (next : List (AddrPair P)) : Prop where
  placed : List.Forall₂ (Placed blocks) order next
  unused : ∀ x ∈ (order.zip next).filter (isCreated ·.1), addrOf blocks x.2 ∉ used
  apart : (((order.zip next).filter (isCreated ·.1)).map (addrOf blocks ·.2)).Nodup

/-- Where a block is, and its type. -/
def place (blocks : P → MemBlock) (pair : AddrPair P) : Nat × Int × Int :=
  (addrOf blocks pair, kind (blocks pair.addr))

/-- The addresses of the blocks of some versions. -/
def usedAddrs (blocks : P → MemBlock) (versions : List (VersionInfo P)) : List Nat :=
  versions.flatMap fun v => v.orderId.map (addrOf blocks)

section
variable {blocks : P → MemBlock} {base next : VersionInfo P} {used : List Nat}
variable {dels : List Nat} {writes : List WriteIds} {news : List NewIds}

theorem Placed.kept_eq {id : Nat} {p : P} {x : AddrPair P}
    (placed : Placed blocks ⟨id, some (.kept p)⟩ x) : x = ⟨id, p⟩ := by
  cases placed
  rfl

theorem Placed.dump_eq {id : Nat} {p : P} {x : AddrPair P}
    (placed : Placed blocks ⟨id, some (.dump p)⟩ x) :
    x.id = id ∧ kind (blocks x.addr) = kind (blocks p) := by
  cases placed with
  | dump sameAddr sameKind => exact ⟨rfl, sameKind⟩

theorem Placed.created_eq {id : Nat} {typeId typeNum : Int} {x : AddrPair P}
    (placed : Placed blocks ⟨id, some (.created typeId typeNum)⟩ x) :
    x.id = id ∧ kind (blocks x.addr) = (typeId, typeNum) := by
  cases placed
  exact ⟨rfl, rfl⟩

theorem placed_kept {kept l : List (AddrPair P)}
    (placed : List.Forall₂ (Placed blocks) (kept.map keptEntry) l) : l = kept := by
  induction kept generalizing l with
  | nil => exact List.forall₂_nil_left_iff.mp placed
  | cons pair kept ih =>
    obtain ⟨id, p⟩ := pair
    cases placed with
    | cons first rest =>
      rw [ih rest]
      cases first
      rfl

/-- The dumps have the ids that they are given, and the places of their originals. -/
theorem placed_dumps {dumps : List (AddrPair P × Nat)} {l : List (AddrPair P)}
    (placed : List.Forall₂ (Placed blocks) (dumps.map dumpEntry) l) :
    l.map (·.id) = dumps.map (·.2) ∧ (∀ pair ∈ l, (blocks pair.addr).id = pair.id) ∧
      l.map (place blocks) = dumps.map fun x => place blocks x.1 := by
  induction dumps generalizing l with
  | nil =>
    obtain rfl := List.forall₂_nil_left_iff.mp placed
    exact ⟨rfl, by simp, rfl⟩
  | cons x dumps ih =>
    cases placed with
    | cons first rest =>
      obtain ⟨ids, own, places⟩ := ih rest
      obtain ⟨⟨id, p⟩, newId⟩ := x
      cases first with
      | dump sameAddr sameKind =>
        refine ⟨?_, ?_, ?_⟩
        · rw [List.map_cons, List.map_cons, ids]
        · rintro pair (_ | ⟨_, behind⟩)
          · rfl
          · exact own pair behind
        · rw [List.map_cons, List.map_cons, places]
          exact congrArg (· :: _) (Prod.ext sameAddr sameKind)

/-- The new blocks have the ids that they are given. -/
theorem placed_created {created : Order P} {l : List (AddrPair P)}
    (all : ∀ entry ∈ created, isCreated entry = true)
    (placed : List.Forall₂ (Placed blocks) created l) :
    l.map (·.id) = created.map (·.id) ∧ ∀ pair ∈ l, (blocks pair.addr).id = pair.id := by
  induction placed with
  | nil => exact ⟨rfl, by simp⟩
  | cons first rest ih =>
    obtain ⟨ids, own⟩ := ih fun entry member => all entry (List.mem_cons_of_mem _ member)
    have new := all _ List.mem_cons_self
    cases first with
    | kept id p => cases new
    | dump sameAddr sameKind => cases new
    | created q =>
      refine ⟨by rw [List.map_cons, List.map_cons, ids], ?_⟩
      rintro pair (_ | ⟨_, behind⟩)
      · rfl
      · exact own pair behind

/-- The new blocks have addresses of their own. -/
theorem created_addrs {front created : Order P} {old new : List (AddrPair P)}
    (allocated : Allocated blocks used (front ++ created) (old ++ new))
    (size : front.length = old.length) (same : created.length = new.length)
    (all : ∀ entry ∈ created, isCreated entry = true) :
    (new.map (addrOf blocks)).Nodup ∧ ∀ pair ∈ new, addrOf blocks pair ∉ used := by
  have inside : (created.zip new).Sublist
      (((front ++ created).zip (old ++ new)).filter (isCreated ·.1)) := by
    rw [List.zip_append size, List.filter_append]
    have kept : (created.zip new).filter (isCreated ·.1) = created.zip new :=
      List.filter_eq_self.mpr fun x member => all x.1 (List.of_mem_zip member).1
    rw [kept]
    exact List.sublist_append_right _ _
  have seconds : (created.zip new).map (·.2) = new := List.map_snd_zip same.ge
  constructor
  · rw [← seconds, List.map_map]
    exact allocated.apart.sublist (inside.map _)
  · intro pair member
    rw [← seconds] at member
    obtain ⟨x, there, rfl⟩ := List.mem_map.mp member
    exact allocated.unused x (inside.subset there)

/-- The ids of the order that _create_new_version makes of a commit. -/
theorem commit_ids (start kept : Nat) (writes : List WriteIds) (news : List NewIds) :
    dumpIds (indexesOf false start kept writes.length) 0 writes =
        List.range' start writes.length ∧
      (createdOf (P := P) (indexesOf false start kept writes.length) news).map (·.id) =
        List.range' (start + writes.length) news.length ∧
      ∀ entry ∈ createdOf (P := P) (indexesOf false start kept writes.length) news,
        isCreated entry = true := by
  refine ⟨rfl, ?_, ?_⟩
  · cases news with
    | nil => rfl
    | cons first news => simp [createdOf, createdIds, indexesOf, Function.comp_def]
  · intro entry member
    cases news with
    | nil => cases member
    | cons first news =>
      obtain ⟨id, _, rfl⟩ := List.mem_map.mp member
      rfl

/-- The parts of a version that is made of a commit: the kept blocks, the dumps at the addresses of
the written ones, and the new ones. -/
structure Parts (blocks : P → MemBlock) (used : List Nat) (base next : VersionInfo P)
    (dels : List Nat) (writes : List WriteIds) (start : Nat) (written created : List (AddrPair P)) :
    Prop where
  starts : writeIdStart base.orderId = some start
  order : next.orderId = keptOf dels (writes.map (·.id)) base.orderId ++ (written ++ created)
  wrote : written ≠ []
  ids : (written ++ created).map (·.id) = List.range' start (written ++ created).length
  own : ∀ pair ∈ written ++ created, (blocks pair.addr).id = pair.id
  places : written.map (place blocks) =
    (writtenOf (writes.map (·.id)) base.orderId).map (place blocks)
  apart : (created.map (addrOf blocks)).Nodup
  unused : ∀ pair ∈ created, addrOf blocks pair ∉ used

theorem commit_parts {all : StructAll} {order : Order P}
    (ascending : base.orderId.Pairwise (·.id < ·.id))
    (made : createNewVersion all base.orderId false dels writes news = .ok order)
    (allocated : Allocated blocks used order next.orderId) :
    ∃ start written created, Parts blocks used base next dels writes start written created := by
  obtain ⟨built, ran, same⟩ := createNewVersion_ok.mp made
  obtain ⟨_, wrote, _⟩ := createOrder_plan ran (List.pairwise_map.mpr ascending)
  obtain ⟨plan, start, starts, rfl⟩ := createOrder_parts ran (List.pairwise_map.mpr ascending)
  simp only [Bool.false_eq_true, if_false] at same
  subst same
  obtain ⟨_, created, order, front, placedNew⟩ := Pointwise.split allocated.placed
  obtain ⟨_, written, rfl, placedKept, placedDumps⟩ := Pointwise.split front
  obtain rfl := placed_kept placedKept
  obtain ⟨dumps, createdIds, allNew⟩ := commit_ids (P := P) start
    (keptOf dels (writes.map (·.id)) base.orderId).length writes news
  obtain ⟨ids, own, places⟩ := placed_dumps placedDumps
  obtain ⟨newIds, ownNew⟩ := placed_created allNew placedNew
  rw [order] at allocated
  obtain ⟨apart, unused⟩ := created_addrs allocated front.length_eq placedNew.length_eq allNew
  have size : (writtenOf (writes.map (·.id)) base.orderId).length =
      (List.range' start writes.length).length := by
    simpa using congrArg List.length plan.counts.2
  rw [dumps] at ids places
  rw [List.map_snd_zip size.ge] at ids
  rw [createdIds] at newIds
  have total : (written ++ created).map (·.id) =
      List.range' start (writes.length + news.length) := by
    rw [List.map_append, ids, newIds, List.range'_append_1]
  have count := congrArg List.length total
  rw [List.length_map, List.length_range'] at count
  refine ⟨start, written, created, starts, ?_, ?_, ?_, ?_, ?_, apart, unused⟩
  · rw [order, List.append_assoc]
  · rintro rfl
    have none := congrArg List.length ids
    rw [List.length_map, List.length_range'] at none
    exact wrote (List.eq_nil_of_length_eq_zero none.symm)
  · rw [total, count]
  · intro pair member
    rcases List.mem_append.mp member with old | new
    · exact own pair old
    · exact ownNew pair new
  · have firsts := congrArg (List.map (place blocks)) (List.map_fst_zip size.le)
    rw [List.map_map] at firsts
    exact places.trans firsts

/-- A written block is where the one before it was, and has its type. -/
theorem Parts.original {start : Nat} {written created : List (AddrPair P)} {pair : AddrPair P}
    (parts : Parts blocks used base next dels writes start written created)
    (member : pair ∈ written) : ∃ prev ∈ base.orderId, place blocks prev = place blocks pair ∧
      prev ∉ keptOf dels (writes.map (·.id)) base.orderId := by
  have there := List.mem_map_of_mem (f := place blocks) member
  rw [parts.places] at there
  obtain ⟨prev, inside, same⟩ := List.mem_map.mp there
  obtain ⟨here, rewritten⟩ := List.mem_filter.mp inside
  refine ⟨prev, here, same, ?_⟩
  intro kept
  have untouched := of_decide_eq_true (List.mem_filter.mp kept).2
  exact untouched.2 (of_decide_eq_true rewritten)

/-- The version that _create_new_version makes of a commit is one of the history. -/
theorem Parts.committed {start : Nat} {written created : List (AddrPair P)}
    (sound : Sound blocks base)
    (parts : Parts blocks used base next dels writes start written created)
    (inUse : ∀ pair ∈ base.orderId, addrOf blocks pair ∈ used)
    (addrs : sortAddrId blocks next.orderId = some next.orderAddr) :
    Committed blocks base next := by
  obtain ⟨final, ends, last⟩ := Option.map_eq_some_iff.mp parts.starts
  have sameAddrs := congrArg (List.map Prod.fst) parts.places
  rw [List.map_map, List.map_map] at sameAddrs
  change written.map (addrOf blocks) =
    (writtenOf (writes.map (·.id)) base.orderId).map (addrOf blocks) at sameAddrs
  refine ⟨final.id, keptOf dels (writes.map (·.id)) base.orderId, written, created,
    ⟨?_, parts.order, List.filter_sublist, parts.wrote, ?_, parts.own, ?_, ?_, ?_, addrs⟩⟩
  · rw [lastId, ends]
    rfl
  · rw [parts.ids, last]
  · intro pair member
    obtain ⟨prev, here, same, left⟩ := parts.original member
    exact ⟨prev, here, left, congrArg Prod.fst same⟩
  · intro pair member prev inside same
    exact parts.unused pair member (same ▸ inUse prev inside)
  · rw [List.map_append]
    refine List.nodup_append.mpr ⟨?_, parts.apart, ?_⟩
    · rw [sameAddrs]
      exact sound.distinct.sublist (List.filter_sublist.map _)
    · intro addr old other new same
      rw [sameAddrs] at old
      obtain ⟨prev, inside, rfl⟩ := List.mem_map.mp old
      obtain ⟨pair, member, rfl⟩ := List.mem_map.mp new
      exact parts.unused pair member (same ▸ inUse prev (List.mem_filter.mp inside).1)

/-- Blocks at the same address have the same type. -/
def SameKinds (blocks : P → MemBlock) (v w : VersionInfo P) : Prop :=
  ∀ x ∈ v.orderId, ∀ y ∈ w.orderId, addrOf blocks x = addrOf blocks y →
    kind (blocks x.addr) = kind (blocks y.addr)

/-- The types of the blocks of the new version are those of the blocks in use at their addresses. -/
theorem Parts.sameKinds {start : Nat} {written created : List (AddrPair P)} {v : VersionInfo P}
    (parts : Parts blocks used base next dels writes start written created)
    (kinds : SameKinds blocks base v) (inUse : ∀ pair ∈ v.orderId, addrOf blocks pair ∈ used) :
    SameKinds blocks next v := by
  intro x member y there same
  rw [parts.order] at member
  rcases List.mem_append.mp member with kept | brought
  · exact kinds x (List.mem_filter.mp kept).1 y there same
  · rcases List.mem_append.mp brought with old | new
    · obtain ⟨prev, here, alike, _⟩ := parts.original old
      have addr : addrOf blocks prev = addrOf blocks x := congrArg Prod.fst alike
      have sameKind : kind (blocks prev.addr) = kind (blocks x.addr) := congrArg Prod.snd alike
      exact sameKind.symm.trans (kinds prev here y there (addr.trans same))
    · exact absurd (same ▸ inUse y there) (parts.unused x new)

theorem SameKinds.symm {v w : VersionInfo P} (kinds : SameKinds blocks v w) :
    SameKinds blocks w v :=
  fun x member y there same => (kinds y there x member same.symm).symm

theorem sameKinds_self {v : VersionInfo P} (sound : Sound blocks v) : SameKinds blocks v v := by
  intro x member y there same
  rw [sound.same_block member there same]

theorem mem_usedAddrs {versions : List (VersionInfo P)} {v : VersionInfo P} {pair : AddrPair P}
    (member : v ∈ versions) (inside : pair ∈ v.orderId) :
    addrOf blocks pair ∈ usedAddrs blocks versions :=
  List.mem_flatMap.mpr ⟨v, member, List.mem_map_of_mem inside⟩

end

/-- An update from one version of the server to another. -/
structure Packet (P : Type) where
  old : VersionInfo P
  new : VersionInfo P
  update : Update P

/-- The newest version of a client, and the server's version that it was made for. -/
structure Client (P Q : Type) where
  base : VersionInfo P
  orderId : List (AddrPair Q)

/-- The versions in the server's list, from the newest on, the updates that were made of them, and
the clients. -/
structure State (P Q ι : Type) where
  versions : List (VersionInfo P)
  packets : List (Packet P)
  clients : ι → Client P Q

/-- What happens: a client takes an update with so many new blocks. -/
inductive Event (ι : Type) where
  | commit
  | forget
  | send
  | take (i : ι) (news : Nat)

section
variable {ι : Type} [DecidableEq ι] (all types : StructAll)
variable (blocks : P → MemBlock) (mine : Q → MemBlock)

/-- A commit is made of the newest version, and the oldest one is given up; an update is made of
any two versions that are left. It is taken by any client whose version it is made of, once, again
or never. -/
inductive Step : State P Q ι → Event ι → State P Q ι → Prop where
  | commit {s : State P Q ι} {base next : VersionInfo P} {older : List (VersionInfo P)}
      {dels : List Nat} {writes : List WriteIds} {news : List NewIds} {order : Order P}
      (newest : s.versions = base :: older)
      (made : createNewVersion all base.orderId false dels writes news = .ok order)
      (allocated : Allocated blocks (usedAddrs blocks s.versions) order next.orderId)
      (addrs : sortAddrId blocks next.orderId = some next.orderAddr) :
      Step s .commit { s with versions := next :: s.versions }
  | forget {s : State P Q ι} {newer : List (VersionInfo P)} {oldest : VersionInfo P}
      (held : s.versions = newer ++ [oldest]) (left : newer ≠ []) :
      Step s .forget { s with versions := newer }
  | send {s : State P Q ι} {newer middle older : List (VersionInfo P)} {old new : VersionInfo P}
      {update : Update P} (held : s.versions = newer ++ new :: (middle ++ old :: older))
      (made : getUpdate blocks types old new = .ok update) :
      Step s .send { s with packets := ⟨old, new, update⟩ :: s.packets }
  | take {s : State P Q ι} {i : ι} {packet : Packet P} {order : Order Q}
      {orderId : List (AddrPair Q)} (sent : packet ∈ s.packets)
      (base : packet.old = (s.clients i).base)
      (made : createNewVersion types (s.clients i).orderId true
        (updateLists blocks packet.update).dels (updateLists blocks packet.update).writes
        (updateLists blocks packet.update).news = .ok order)
      (placed : List.Forall₂ (Placed mine) order orderId) :
      Step s (.take i packet.update.news.length)
        { s with clients := Function.update s.clients i ⟨packet.new, orderId⟩ }

inductive Run : List (Event ι) → State P Q ι → State P Q ι → Prop where
  | nil (s : State P Q ι) : Run [] s s
  | cons {event : Event ι} {events : List (Event ι)} {s s' s'' : State P Q ι}
      (step : Step all types blocks mine s event s') (run : Run events s' s'') :
      Run (event :: events) s s''

/-- The client's blocks are those of the server's version: they have its ids and types. -/
def Mirrors (c : Client P Q) : Prop :=
  List.Forall₂ (fun x y => x.id = y.id ∧ kind (mine x.addr) = kind (blocks y.addr))
    c.orderId c.base.orderId

/-- An update that was made of two versions of the history. -/
structure Carried (packet : Packet P) : Prop where
  sound : Sound blocks packet.old
  later : Relation.TransGen (Committed blocks) packet.old packet.new
  kinds : SameKinds blocks packet.old packet.new
  made : getUpdate blocks types packet.old packet.new = .ok packet.update

structure Initial (s : State P Q ι) : Prop where
  root : ∃ root, s.versions = [root] ∧ Sound blocks root
  packets : s.packets = []
  clients : ∀ i, Mirrors blocks mine (s.clients i)

/-- The server's versions and the updates, whatever the clients have made of them. -/
structure History (s : State P Q ι) : Prop where
  sound : ∀ v ∈ s.versions, Sound blocks v
  later : s.versions.Pairwise fun newer older => Relation.TransGen (Committed blocks) older newer
  kinds : ∀ v ∈ s.versions, ∀ w ∈ s.versions, SameKinds blocks v w
  carried : ∀ packet ∈ s.packets, Carried types blocks packet

end

section
variable {ι : Type} [DecidableEq ι] {all types : StructAll}
variable {blocks : P → MemBlock} {mine : Q → MemBlock} {s s' : State P Q ι} {event : Event ι}

omit [DecidableEq ι] in
theorem Initial.history (start : Initial blocks mine s) : History types blocks s := by
  obtain ⟨⟨root, versions, sound⟩, packets, _⟩ := start
  constructor
  · intro v member
    rw [versions] at member
    rwa [List.mem_singleton.mp member]
  · rw [versions]
    exact List.pairwise_singleton _ _
  · intro v member w member'
    rw [versions] at member member'
    rw [List.mem_singleton.mp member, List.mem_singleton.mp member']
    exact sameKinds_self sound
  · intro packet member
    rw [packets] at member
    cases member

theorem Step.history (step : Step all types blocks mine s event s')
    (history : History types blocks s) : History types blocks s' := by
  obtain ⟨sound, later, kinds, carried⟩ := history
  cases step with
  | @commit base next older dels writes news order newest made allocated addrs =>
    have held : base ∈ s.versions := newest ▸ List.mem_cons_self
    have inUse : ∀ v ∈ s.versions, ∀ pair ∈ v.orderId,
        addrOf blocks pair ∈ usedAddrs blocks s.versions :=
      fun v member pair inside => mem_usedAddrs member inside
    obtain ⟨start, written, created, parts⟩ :=
      commit_parts (sound base held).ascending made allocated
    have committed := parts.committed (sound base held) (inUse base held) addrs
    have old : ∀ v ∈ s.versions, SameKinds blocks next v :=
      fun v member => parts.sameKinds (kinds base held v member) (inUse v member)
    have whole := Sound.of_history (sound base held) (.single committed)
    constructor
    · rintro v (_ | ⟨_, member⟩)
      · exact whole
      · exact sound v member
    · refine List.pairwise_cons.mpr ⟨fun v member => ?_, later⟩
      rw [newest] at member later
      rcases List.mem_cons.mp member with rfl | before
      · exact .single committed
      · exact .tail (List.rel_of_pairwise_cons later before) committed
    · rintro v (_ | ⟨_, member⟩) w (_ | ⟨_, member'⟩)
      · exact sameKinds_self whole
      · exact old w member'
      · exact (old v member).symm
      · exact kinds v member w member'
    · exact carried
  | @forget newer oldest held left =>
    have within : newer.Sublist s.versions := held ▸ List.sublist_append_left _ _
    exact ⟨fun v member => sound v (within.subset member), later.sublist within,
      fun v member w member' => kinds v (within.subset member) w (within.subset member'), carried⟩
  | @send newer middle older old new update held made =>
    refine ⟨sound, later, kinds, ?_⟩
    rintro packet (_ | ⟨_, member⟩)
    · have newHeld : new ∈ s.versions := by simp [held]
      have oldHeld : old ∈ s.versions := by simp [held]
      refine ⟨sound old oldHeld, ?_, kinds old oldHeld new newHeld, made⟩
      rw [held] at later
      have rest := (List.pairwise_append.mp later).2.1
      exact List.rel_of_pairwise_cons rest (by simp)
    · exact carried packet member
  | take => exact ⟨sound, later, kinds, carried⟩

/-- The block that the client has for a block of the server has its id and type. -/
theorem placed_mirrors {old : VersionInfo P} {client : List (AddrPair Q)}
    {entry : AddrPair (Option (Made Q))} {x : AddrPair Q} {y : AddrPair P}
    (sound : Sound blocks old)
    (mirror : List.Forall₂ (fun x y => x.id = y.id ∧ kind (mine x.addr) = kind (blocks y.addr))
      client old.orderId)
    (kinds : ∀ prev ∈ old.orderId, addrOf blocks prev = addrOf blocks y →
      kind (blocks prev.addr) = kind (blocks y.addr))
    (placed : Placed mine entry x) (copies : Copies blocks old client entry y) :
    x.id = y.id ∧ kind (mine x.addr) = kind (blocks y.addr) := by
  cases copies with
  | kept member here =>
    obtain rfl := placed.kept_eq
    obtain ⟨pair, there, id, sameKind⟩ := Pointwise.partner mirror here
    obtain rfl := unique_id sound there member id.symm
    exact ⟨rfl, sameKind⟩
  | dump member sameAddr differs here =>
    obtain ⟨id, dumped⟩ := placed.dump_eq
    obtain ⟨prev, there, oldId, sameKind⟩ := Pointwise.partner mirror here
    obtain rfl := unique_id sound there member oldId.symm
    exact ⟨id, dumped.trans (sameKind.trans (kinds prev member sameAddr))⟩
  | created gone => exact placed.created_eq

/-- What a client makes of an update mirrors the newer version if and only if at most one block is
new. -/
theorem take_mirrors {packet : Packet P} {client : Client P Q}
    (carried : Carried types blocks packet) (mirror : Mirrors blocks mine client)
    (base : packet.old = client.base) :
    ∃ order, createNewVersion types client.orderId true (updateLists blocks packet.update).dels
        (updateLists blocks packet.update).writes (updateLists blocks packet.update).news =
          .ok order ∧
      ∀ orderId, List.Forall₂ (Placed mine) order orderId →
        (Mirrors blocks mine ⟨packet.new, orderId⟩ ↔ packet.update.news.length ≤ 1) := by
  unfold Mirrors at mirror
  rw [← base] at mirror
  have ids := Pointwise.map_eq (f := (·.id)) (g := (·.id)) mirror fun _ _ same => same.1
  obtain ⟨order, made, copied, few⟩ := replay carried.sound carried.later carried.made ids
  refine ⟨order, made, fun orderId placed => ⟨fun mirrors => few ?_, fun small => ?_⟩⟩
  · have own : order.map (·.id) = orderId.map (·.id) :=
      Pointwise.map_eq placed fun _ _ placed => by cases placed <;> rfl
    exact own.trans (Pointwise.map_eq mirrors fun _ _ same => same.1)
  · refine List.Forall₂.flip (Pointwise.join (copied small) placed ?_)
    intro entry y there x copies placed
    exact placed_mirrors carried.sound mirror
      (fun prev member sameAddr => carried.kinds prev member y there sameAddr) placed copies

theorem Step.mirrors (step : Step all types blocks mine s event s')
    (history : History types blocks s) (mirrors : ∀ i, Mirrors blocks mine (s.clients i))
    (few : ∀ i n, event = .take i n → n ≤ 1) (i : ι) : Mirrors blocks mine (s'.clients i) := by
  cases step with
  | commit => exact mirrors i
  | forget => exact mirrors i
  | send => exact mirrors i
  | @take j packet order orderId sent base made placed =>
    by_cases here : i = j
    · subst here
      obtain ⟨order', made', iff⟩ := take_mirrors (history.carried packet sent) (mirrors i) base
      rw [made] at made'
      cases made'
      simpa using (iff orderId placed).mpr (few i _ rfl)
    · simpa [here] using mirrors i

theorem Run.follows {events : List (Event ι)} (run : Run all types blocks mine events s s')
    (history : History types blocks s) (mirrors : ∀ i, Mirrors blocks mine (s.clients i))
    (few : ∀ i n, Event.take i n ∈ events → n ≤ 1) :
    History types blocks s' ∧ ∀ i, Mirrors blocks mine (s'.clients i) := by
  induction run with
  | nil => exact ⟨history, mirrors⟩
  | cons step run ih =>
    refine ih (step.history history) ?_ fun i n member => few i n (List.mem_cons_of_mem _ member)
    exact step.mirrors history mirrors fun i n same => few i n (same ▸ List.mem_cons_self)

end

end MoonInWater.Sync.Replica
