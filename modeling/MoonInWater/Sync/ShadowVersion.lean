import MoonInWater.Lib.Follows
import MoonInWater.Sync.Shadow

/-! Calls of shadow_runtime, shadow_new and shadow_del under one thread_private, and the data of
the version that they are for. -/
namespace MoonInWater.Sync.Shadow
open CInt Pairs Avl Floor Fuel PointTable Machine
variable {P : Type}

/-- The three calls; calloc and malloc return `node` and `pBlock`. -/
inductive UserCall (P : Type) where
  | runtime (opt : Opt) (pData : Nat) (node : P) (pBlock : Nat)
  | new (typeIndex num size : Int) (node : P) (pBlock : Nat)
  | del (addr : Nat) (node : P) (pBlock : Nat)

/-- The memory of a user, with the ranges of addresses that shadow_new has returned. -/
structure UserState (P : Type) where
  tp : ThreadPrivate P
  created : List (Nat × Int)

section model
variable [DecidableEq P]

def callFuel (fuel : Nat) (call : UserCall P) (s : UserState P) :
    Option (UserState P × Option Nat) :=
  match call with
  | .runtime opt pData node pBlock =>
    (shadowRuntime fuel opt pData (some node) (some pBlock) s.tp).map fun r =>
      (⟨r.1, s.created⟩, some r.2)
  | .new typeIndex num size node pBlock =>
    (shadowNew fuel typeIndex num size (some node) pBlock s.tp).map fun r =>
      (⟨r.1, if r.2 = 0 then s.created else (r.2, size) :: s.created⟩, some r.2)
  | .del addr node pBlock =>
    (shadowDel fuel addr (some node) (some pBlock) s.tp).map fun t => (⟨t, s.created⟩, none)

/-- A call, whose searches end by themselves. -/
noncomputable def userCall (call : UserCall P) (s : UserState P) :
    Option (UserState P × Option Nat) :=
  limit fun fuel => callFuel fuel call s

end model

/-- The pointer is one into the data of a block of the version. -/
def InVersion (t : ThreadPrivate P) (p : Nat) : Prop :=
  ∃ x ∈ t.version.orderAddr, Covers (t.block x.addr).data (t.block x.addr).dataLen p

/-- What malloc returns for a block with `len` bytes behind it: memory that no block of the version
or of the tree lies in, nor the data of the version. -/
structure Allocates (t : ThreadPrivate P) (node : P) (pBlock : Nat) (len : Int) : Prop where
  node : t.avl.live node = false
  version : ∀ x ∈ t.version.orderAddr, x.addr ≠ pBlock
  tree : ∀ q, InTree t.avl.mem q → (t.avl.pair q).addr ≠ some pBlock
  data : ∀ p, Covers (pBlock + sizeofMemBlock) len p → ¬ InVersion t p
  fits : ((pBlock + sizeofMemBlock : Nat) : Int) + len < 2 ^ 64

/-- Addresses are those of blocks of the version and of blocks that shadow_new has made. -/
def Known (s : UserState P) (addr : Nat) : Prop :=
  (∃ x ∈ s.tp.version.orderAddr, Covers x.id (s.tp.block x.addr).dataLen addr) ∨
    ∃ r ∈ s.created, Covers r.1 r.2 addr

def callable : UserCall P → UserState P → Prop
  | .runtime _ pData node pBlock, s => Known s pData ∧
      ∀ x ∈ s.tp.version.orderAddr, Covers x.id (s.tp.block x.addr).dataLen pData →
        Allocates s.tp node pBlock (s.tp.block x.addr).dataLen
  | .new _ _ size node pBlock, s => Allocates s.tp node pBlock size
  | .del addr node pBlock, s => Known s addr ∧ Allocates s.tp node pBlock 0

/-- The block has the data of a block of the version, as shadow_del leaves it. -/
def Marker (t : ThreadPrivate P) (pBlock : Nat) : Prop :=
  ∃ x ∈ t.version.orderAddr, (t.block pBlock).data = (t.block x.addr).data ∧
    (t.block pBlock).dataLen = (t.block x.addr).dataLen

/-- A call that writes is for no address of a marker in the tree. -/
def noMarker : UserCall P → UserState P → Prop
  | .runtime .w pData _ _, s => ∀ q pBlock, Floors s.tp.avl pData q →
      (s.tp.avl.pair q).addr = some pBlock →
        Covers (s.tp.avl.key q) (s.tp.block pBlock).dataLen pData → ¬ Marker s.tp pBlock
  | _, _ => True

/-- A call that writes returns no pointer into the version. -/
def sparesVersion : UserCall P → Unit → UserState P → UserState P → Option Nat → Prop
  | .runtime .w _ _ _, _, _, s', out => ∀ p ∈ out, ¬ InVersion s'.tp p
  | _, _, _, _, _ => True

/-- The tree's blocks are private ones, or markers. -/
structure EntryOk (t : ThreadPrivate P) (key pBlock : Nat) : Prop where
  version : ∀ x ∈ t.version.orderAddr, x.addr ≠ pBlock
  fits : Fits key (t.block pBlock).dataLen
  data : (∀ p, Covers (t.block pBlock).data (t.block pBlock).dataLen p → ¬ InVersion t p) ∨
    Marker t pBlock

structure UserOk (s : UserState P) : Prop where
  placed : Placed s.tp.version s.tp.block
  sound : s.tp.avl.Sound
  entries : ∀ q, InTree s.tp.avl.mem q → ∃ pBlock, (s.tp.avl.pair q).addr = some pBlock ∧
    EntryOk s.tp (s.tp.avl.key q) pBlock
  created : ∀ r ∈ s.created, 0 < r.1 ∧ ∀ p, Covers r.1 r.2 p → ¬ InVersion s.tp p

section keeps
variable {s : UserState P} {t : ThreadPrivate P} {block : Nat → ShadowBlock} {avl : PairTree P Nat}
variable {node : P} {pBlock key p : Nat} {len : Int} {created : List (Nat × Int)}

/-- The blocks of the version stay as they are. -/
def KeepsVersion (t : ThreadPrivate P) (block : Nat → ShadowBlock) : Prop :=
  ∀ x ∈ t.version.orderAddr, block x.addr = t.block x.addr

theorem KeepsVersion.update (apart : ∀ x ∈ t.version.orderAddr, x.addr ≠ pBlock)
    (b : ShadowBlock) : KeepsVersion t (Function.update t.block pBlock b) := by
  intro x member
  exact Function.update_of_ne (apart x member) _ _

theorem KeepsVersion.inVersion (keeps : KeepsVersion t block) :
    InVersion ⟨t.version, avl, block⟩ p ↔ InVersion t p := by
  constructor
  · rintro ⟨x, member, covers⟩
    dsimp only at member covers
    rw [keeps x member] at covers
    exact ⟨x, member, covers⟩
  · rintro ⟨x, member, covers⟩
    rw [← keeps x member] at covers
    exact ⟨x, member, covers⟩

/-- An entry whose block keeps its data is as good as before. -/
theorem EntryOk.keep (ok : EntryOk t key pBlock) (keeps : KeepsVersion t block)
    (data : (block pBlock).data = (t.block pBlock).data)
    (dataLen : (block pBlock).dataLen = (t.block pBlock).dataLen) :
    EntryOk ⟨t.version, avl, block⟩ key pBlock := by
  refine ⟨ok.version, by rw [dataLen]; exact ok.fits, ?_⟩
  rcases ok.data with own | ⟨x, member, same, same'⟩
  · left
    intro p covers
    rw [data, dataLen] at covers
    rw [keeps.inVersion]
    exact own p covers
  · right
    refine ⟨x, member, ?_, ?_⟩ <;> dsimp only
    · rw [data, keeps x member, same]
    · rw [dataLen, keeps x member, same']

/-- What a call leaves that changes no block which is in use. -/
theorem UserOk.keep (ok : UserOk s) (keeps : KeepsVersion s.tp block) (sound : avl.Sound)
    (entries : ∀ q, InTree avl.mem q → ∃ pBlock, (avl.pair q).addr = some pBlock ∧
      EntryOk ⟨s.tp.version, avl, block⟩ (avl.key q) pBlock)
    (fresh : ∀ r ∈ created, r ∈ s.created ∨ 0 < r.1 ∧ ∀ p, Covers r.1 r.2 p → ¬ InVersion s.tp p) :
    UserOk ⟨⟨s.tp.version, avl, block⟩, created⟩ := by
  refine ⟨ok.placed.congr keeps, sound, entries, fun r member => ?_⟩
  have known : 0 < r.1 ∧ ∀ p, Covers r.1 r.2 p → ¬ InVersion s.tp p := by
    rcases fresh r member with old | new
    · exact ok.created r old
    · exact new
  exact ⟨known.1, fun p covers inside => known.2 p covers (keeps.inVersion.mp inside)⟩

/-- A call that stores a new block in the tree. -/
theorem UserOk.store (ok : UserOk s) (alloc : Allocates s.tp node pBlock len)
    (stored : Stored s.tp.avl avl node key pBlock) {b : ShadowBlock} (fits : Fits key b.dataLen)
    (data : (∀ p, Covers b.data b.dataLen p → ¬ InVersion s.tp p) ∨
      ∃ x ∈ s.tp.version.orderAddr, b.data = (s.tp.block x.addr).data ∧
        b.dataLen = (s.tp.block x.addr).dataLen)
    (fresh : ∀ r ∈ created, r ∈ s.created ∨ 0 < r.1 ∧ ∀ p, Covers r.1 r.2 p → ¬ InVersion s.tp p) :
    UserOk ⟨⟨s.tp.version, avl, Function.update s.tp.block pBlock b⟩, created⟩ := by
  have keeps := KeepsVersion.update (t := s.tp) alloc.version b
  refine ok.keep keeps stored.sound (fun q member => ?_) fresh
  rcases stored.members q member with new | ⟨old, same⟩
  · refine ⟨pBlock, by rw [new], alloc.version, ?_, ?_⟩
    · simpa only [PairTree.key, new, Function.update_self] using fits
    · simp only [Marker, Function.update_self]
      rcases data with own | ⟨x, member', here, here'⟩
      · left
        intro p covers
        rw [keeps.inVersion]
        exact own p covers
      · right
        exact ⟨x, member', by rw [keeps x member', here], by rw [keeps x member', here']⟩
  · obtain ⟨pBlock', addr, entry⟩ := ok.entries q old
    have apart : pBlock' ≠ pBlock := by
      rintro rfl
      exact alloc.tree q old addr
    have same' : avl.key q = s.tp.avl.key q := by rw [PairTree.key, same]; rfl
    refine ⟨pBlock', by rw [same, addr], ?_⟩
    rw [same']
    apply entry.keep keeps <;> rw [Function.update_of_ne apart]

end keeps

section calls
variable [DecidableEq P] {s : UserState P} {opt : Opt} {pData pBlock p : Nat} {node : P}

omit [DecidableEq P] in
theorem Known.nonzero (ok : UserOk s) (known : Known s pData) : pData ≠ 0 := by
  rcases known with ⟨x, member, covers⟩ | ⟨r, member, covers⟩
  · have start := (ok.placed.fits x member).1
    have low := covers.1
    omega
  · have start := (ok.created r member).1
    have low := covers.1
    omega

theorem runtime_found {found : Found} {t' : ThreadPrivate P} (some' : pData ≠ 0)
    (looked : Returns (fun fuel => shadowLookup fuel opt pData s.tp) found)
    (rest : Returns (fun fuel => shadowReturn fuel (some node) (some pBlock) pData s.tp found)
      (t', p)) :
    Returns (fun fuel => shadowRuntime fuel opt pData (some node) (some pBlock) s.tp) (t', p) := by
  refine looked.imp₂ rest fun fuel found' ended => ?_
  rw [shadowRuntime, if_neg some', found', Option.bind_some]
  exact ended

/-- What a call returns for an address of a block that the tree has. -/
theorem runtime_hit (ok : UserOk s) (some' : pData ≠ 0) {q : P} {b : Nat}
    (floors : Floors s.tp.avl pData q) (stored : (s.tp.avl.pair q).addr = some b)
    (covers : Covers (s.tp.avl.key q) (s.tp.block b).dataLen pData) (opt : Opt) (node : P)
    (pBlock : Nat) :
    Returns (fun fuel => shadowRuntime fuel opt pData (some node) (some pBlock) s.tp)
      (s.tp, (s.tp.block b).data + (pData - s.tp.avl.key q)) := by
  obtain ⟨b', stored', entry⟩ := ok.entries q floors.inTree
  cases stored.symm.trans stored'
  have place := offsetIn_inside entry.fits covers
  exact runtime_found some' (shadowLookup_hit ok.sound floors stored place opt) (.pure _)

omit [DecidableEq P] in
/-- Such a pointer is one into the version exactly for a marker. -/
theorem hit_inVersion (ok : UserOk s) {q : P} {b : Nat} (floors : Floors s.tp.avl pData q)
    (stored : (s.tp.avl.pair q).addr = some b)
    (covers : Covers (s.tp.avl.key q) (s.tp.block b).dataLen pData) :
    InVersion s.tp ((s.tp.block b).data + (pData - s.tp.avl.key q)) ↔ Marker s.tp b := by
  obtain ⟨b', stored', entry⟩ := ok.entries q floors.inTree
  cases stored.symm.trans stored'
  have inside : Covers (s.tp.block b).data (s.tp.block b).dataLen
      ((s.tp.block b).data + (pData - s.tp.avl.key q)) := by
    obtain ⟨low, high⟩ := covers
    constructor
    · omega
    · omega
  constructor
  · intro inVersion
    rcases entry.data with own | marker
    · exact absurd inVersion (own _ inside)
    · exact marker
  · rintro ⟨x, member, same, same'⟩
    exact ⟨x, member, by rw [← same, ← same']; exact inside⟩

theorem lookup_missed (ok : UserOk s) {found : Found}
    (missed : ∀ q b, Floors s.tp.avl pData q → (s.tp.avl.pair q).addr = some b →
      ¬ Covers (s.tp.avl.key q) (s.tp.block b).dataLen pData)
    (rest : Returns (fun fuel => versionLookup fuel opt pData s.tp) found) :
    Returns (fun fuel => shadowLookup fuel opt pData s.tp) found := by
  refine shadowLookup_miss ok.sound (fun q floors => ?_) rest
  obtain ⟨b, stored, entry⟩ := ok.entries q floors.inTree
  refine ⟨b, stored, offsetIn_behind entry.fits ?_⟩
  by_contra before
  exact missed q b floors stored ⟨floors.under, by omega⟩

/-- What a call does for an address of no block that the tree has; a pointer that it returns to
write to is none into the version. -/
theorem runtime_miss (ok : UserOk s) (able : callable (.runtime opt pData node pBlock) s)
    (missed : ∀ q b, Floors s.tp.avl pData q → (s.tp.avl.pair q).addr = some b →
      ¬ Covers (s.tp.avl.key q) (s.tp.block b).dataLen pData) :
    ∃ t' p, Returns (fun fuel => shadowRuntime fuel opt pData (some node) (some pBlock) s.tp)
        (t', p) ∧ UserOk ⟨t', s.created⟩ ∧ (opt = .w → ¬ InVersion t' p) := by
  obtain ⟨known, allocates⟩ := able
  have some' := known.nonzero ok
  obtain ⟨found, searched, place⟩ := versionLookup_returns ok.placed opt pData
  have looked := lookup_missed ok missed searched
  rcases place with ⟨rfl, outside⟩ | ⟨x, member, covers, rfl⟩
  · refine ⟨s.tp, pData, runtime_found some' looked (.pure _), ok, fun _ => ?_⟩
    rcases known with ⟨x, member, covers⟩ | ⟨r, member, covers⟩
    · exact absurd covers (outside x member)
    · exact (ok.created r member).2 pData covers
  · have alloc := allocates x member covers
    have fits := (ok.placed.fits x member).2
    cases opt with
    | r => exact ⟨s.tp, _, runtime_found some' looked (.pure _), ok, fun other => by cases other⟩
    | c => exact ⟨s.tp, _, runtime_found some' looked (.pure _), ok, fun other => by cases other⟩
    | w =>
      obtain ⟨avl, added, stored⟩ := shadowAdd_stored ok.sound alloc.node x.addr pBlock pData
        (pData - x.id)
      rw [ok.placed.addrs x member] at stored
      refine ⟨_, _, runtime_found some' looked added,
        ok.store alloc stored fits (.inl alloc.data) (fun r old => .inl old), fun _ => ?_⟩
      have keeps : KeepsVersion s.tp (s.tp.copied x.addr pBlock) :=
        KeepsVersion.update alloc.version _
      rw [keeps.inVersion]
      obtain ⟨low, high⟩ := covers
      exact alloc.data _ ⟨by omega, by omega⟩

theorem runtime_spec (ok : UserOk s) (able : callable (.runtime opt pData node pBlock) s) :
    ∃ t' p, Returns (fun fuel => shadowRuntime fuel opt pData (some node) (some pBlock) s.tp)
        (t', p) ∧ UserOk ⟨t', s.created⟩ ∧
      (opt = .w → (¬ InVersion t' p ↔ noMarker (.runtime .w pData node pBlock) s)) := by
  have some' := able.1.nonzero ok
  by_cases hit : ∃ q b, Floors s.tp.avl pData q ∧ (s.tp.avl.pair q).addr = some b ∧
      Covers (s.tp.avl.key q) (s.tp.block b).dataLen pData
  · obtain ⟨q, b, floors, stored, covers⟩ := hit
    refine ⟨s.tp, _, runtime_hit ok some' floors stored covers opt node pBlock, ok, fun _ => ?_⟩
    rw [hit_inVersion ok floors stored covers]
    constructor
    · intro own q' b' floors' stored' _
      cases floors'.unique ok.sound floors
      cases stored'.symm.trans stored
      exact own
    · intro clean
      exact clean q b floors stored covers
  · have missed : ∀ q b, Floors s.tp.avl pData q → (s.tp.avl.pair q).addr = some b →
        ¬ Covers (s.tp.avl.key q) (s.tp.block b).dataLen pData :=
      fun q b floors stored covers => hit ⟨q, b, floors, stored, covers⟩
    obtain ⟨t', p, run, ok', outside⟩ := runtime_miss ok able missed
    refine ⟨t', p, run, ok', fun writes => ⟨fun _ q b floors stored covers => ?_, fun _ => ?_⟩⟩
    · exact absurd covers (missed q b floors stored)
    · exact outside writes

theorem new_spec (ok : UserOk s) (typeIndex num : Int) {size : Int}
    (alloc : Allocates s.tp node pBlock size) :
    ∃ t' p, Returns (fun fuel => shadowNew fuel typeIndex num size (some node) pBlock s.tp)
        (t', p) ∧ UserOk ⟨t', if p = 0 then s.created else (p, size) :: s.created⟩ := by
  by_cases refused : num ≤ 0 ∨ size ≤ 0 ∨ typeIndex ≤ 0
  · refine ⟨s.tp, 0, .of_eq fun fuel => ?_, ok⟩
    rw [shadowNew, if_pos refused]
  · obtain ⟨avl, added, pair, stored⟩ := avlAdd_stored ok.sound alloc.node
      (pBlock + sizeofMemBlock)
    have fits : Fits (pBlock + sizeofMemBlock) size := ⟨by omega, alloc.fits⟩
    refine ⟨_, pBlock + sizeofMemBlock, added.imp fun fuel here => ?_,
      ok.store alloc (stored pBlock)
        (b := ⟨⟨0, 0, pBlock + sizeofMemBlock, 0, typeIndex, num, size⟩, pBlock + sizeofMemBlock⟩)
        fits (.inl alloc.data) ?_⟩
    · simp only [shadowNew, if_neg refused, here, Option.map_some]
      rfl
    · intro r member
      rw [if_neg (by simp [sizeofMemBlock])] at member
      rcases List.mem_cons.mp member with rfl | old
      · exact .inr ⟨by simp [sizeofMemBlock], alloc.data⟩
      · exact .inl old

theorem versionDel_spec (ok : UserOk s) (alloc : Allocates s.tp node pBlock 0) (addr : Nat) :
    ∃ t', Returns (fun fuel => versionDel fuel addr (some node) (some pBlock) s.tp) t' ∧
      UserOk ⟨t', s.created⟩ := by
  have searched : Returns (fun fuel => searchAddrId fuel s.tp.version.orderAddr addr
      s.tp.version.orderAddr.length) (floor Pairs.AddrPair.id s.tp.version.orderAddr addr) :=
    ⟨_, fun fuel enough => searchAddrId_eq ok.placed.ascending addr enough⟩
  cases found : (floor Pairs.AddrPair.id s.tp.version.orderAddr addr).filter
      fun x => x.id = addr with
  | none =>
    refine ⟨s.tp, searched.imp fun fuel here => ?_, ok⟩
    simp only [versionDel, here, Option.bind_some, found]
  | some x =>
    obtain ⟨under, same⟩ := Option.filter_eq_some_iff.mp found
    have member := (floor_some under).1
    have key : x.id = addr := by simpa using same
    obtain ⟨avl, added, _, stored⟩ := avlAdd_stored ok.sound alloc.node addr
    have fits := (ok.placed.fits x member).2
    rw [key] at fits
    refine ⟨_, searched.imp₂ added fun fuel here linked => ?_,
      ok.store alloc (stored pBlock) (b := { s.tp.block x.addr with isDel := 1 }) fits
        (.inr ⟨x, member, rfl, rfl⟩) fun r old => .inl old⟩
    simp only [versionDel, here, Option.bind_some, found, linked, Option.map_some]
    rfl

theorem del_spec (ok : UserOk s) {addr : Nat} (known : Known s addr)
    (alloc : Allocates s.tp node pBlock 0) :
    ∃ t', Returns (fun fuel => shadowDel fuel addr (some node) (some pBlock) s.tp) t' ∧
      UserOk ⟨t', s.created⟩ := by
  have some' := known.nonzero ok
  obtain ⟨t', rest, ok'⟩ := versionDel_spec ok alloc addr
  rcases search_cases ok.sound addr with ⟨q, floors⟩ | ⟨_, searched⟩
  · have searched := floors.search ok.sound
    by_cases here : s.tp.avl.key q = addr
    · obtain ⟨b, stored, entry⟩ := ok.entries q floors.inTree
      by_cases new : (s.tp.block b).id = 0
      · obtain ⟨avl, _, deleted, shrunk⟩ := avlDel_shrunk ok.sound addr
        refine ⟨⟨s.tp.version, avl, s.tp.block⟩, searched.imp₂ deleted fun fuel found gone => ?_,
          ok.keep (fun _ _ => rfl) shrunk.sound (fun p member => ?_) fun r old => .inl old⟩
        · rw [shadowDel, if_neg some', found, Option.bind_some]
          simp only [Option.filter_some, here, decide_true, if_true, stored, Option.bind_some, new,
            gone, Option.map_some]
        · have old := shrunk.members p member
          have same : avl.key p = s.tp.avl.key p := congrArg _ (shrunk.pairs p old)
          obtain ⟨b', stored', entry'⟩ := ok.entries p old
          rw [same, shrunk.pairs p old]
          exact ⟨b', stored', entry'.keep (fun _ _ => rfl) rfl rfl⟩
      · have keeps := KeepsVersion.update entry.version { s.tp.block b with isDel := 1 }
        refine ⟨_, searched.imp fun fuel found => ?_,
          ok.keep keeps ok.sound (fun p member => ?_) fun r old => .inl old⟩
        · rw [shadowDel, if_neg some', found, Option.bind_some]
          simp only [Option.filter_some, here, decide_true, if_true, stored, Option.bind_some, new,
            if_false]
        · obtain ⟨b', stored', entry'⟩ := ok.entries p member
          refine ⟨b', stored', entry'.keep keeps ?_ ?_⟩ <;> by_cases same : b' = b <;> simp [same]
    · refine ⟨t', searched.imp₂ rest fun fuel found ended => ?_, ok'⟩
      rw [shadowDel, if_neg some', found, Option.bind_some]
      simpa only [Option.filter_some, here, decide_false, Bool.false_eq_true, if_false] using ended
  · refine ⟨t', searched.imp₂ rest fun fuel found ended => ?_, ok'⟩
    rw [shadowDel, if_neg some', found, Option.bind_some]
    exact ended

/-- Every call returns, and one that writes spares the version exactly where it hits no marker. -/
theorem userCall_spec {call : UserCall P} (ok : UserOk s) (able : callable call s) :
    ∃ s' out, userCall call s = some (s', out) ∧ UserOk s' ∧
      (sparesVersion call () s s' out ↔ noMarker call s) := by
  cases call with
  | runtime opt pData node pBlock =>
    obtain ⟨t', p, run, ok', spares⟩ := runtime_spec ok able
    have ran : Returns (fun fuel => callFuel fuel (.runtime opt pData node pBlock) s)
        (⟨t', s.created⟩, some p) := run.map _
    refine ⟨_, _, ran.limit_eq, ok', ?_⟩
    cases opt with
    | r => exact Iff.rfl
    | c => exact Iff.rfl
    | w => simpa [sparesVersion] using spares rfl
  | new typeIndex num size node pBlock =>
    obtain ⟨t', p, run, ok'⟩ := new_spec ok typeIndex num able
    have ran : Returns (fun fuel => callFuel fuel (.new typeIndex num size node pBlock) s)
        (⟨t', if p = 0 then s.created else (p, size) :: s.created⟩, some p) := run.map _
    exact ⟨_, _, ran.limit_eq, ok', Iff.rfl⟩
  | del addr node pBlock =>
    obtain ⟨t', run, ok'⟩ := del_spec ok able.1 able.2
    have ran : Returns (fun fuel => callFuel fuel (.del addr node pBlock) s)
        (⟨t', s.created⟩, none) := run.map _
    exact ⟨_, _, ran.limit_eq, ok', Iff.rfl⟩

/-- A user starts without a private tree. -/
theorem userOk_start {t : ThreadPrivate P} (placed : Placed t.version t.block)
    (empty : t.avl.mem.root = none) : UserOk ⟨t, []⟩ := by
  have sound : t.avl.Sound := reachable_pairTree empty .refl
  refine ⟨placed, sound, fun q inTree => ?_, by simp⟩
  have wellFormed : WellFormed t.avl.key t.avl.mem .nil := ⟨empty, trivial, trivial, .nil⟩
  cases wellFormed.inTree_iff.mp inTree

/-- In every sequence of the calls of a user, each returns, and no pointer to write to is one into
the data of the version, if and only if none of the calls that write is for an address of a block
that shadow_del has marked while the tree had no copy of it. -/
theorem version_spared_iff {t : ThreadPrivate P} (placed : Placed t.version t.block)
    (empty : t.avl.mem.root = none) {calls : List (UserCall P)}
    (run : Meets userCall callable calls ⟨t, []⟩) :
    Follows userCall (fun _ _ => ()) sparesVersion (fun _ _ => True) calls ⟨t, []⟩ () ↔
      Meets userCall noMarker calls ⟨t, []⟩ := by
  have matching : ∀ (s : UserState P) (_ : Unit), UserOk s → True := fun _ _ _ => trivial
  refine Meets.follows_iff_meets matching ?_ ?_ (userOk_start placed empty) run
  · intro call s _ ok able clean
    obtain ⟨s', out, ran, ok', spares⟩ := userCall_spec ok able
    exact ⟨s', out, ran, spares.mpr clean, ok'⟩
  · intro call s _ s' out ok able ran good _
    obtain ⟨s'', out', ran', _, spares⟩ := userCall_spec ok able
    cases ran.symm.trans ran'
    exact spares.mp good

/-- One block at the address 1000, whose data lie at 2000, and no private tree. -/
def plainVersion : ThreadPrivate Nat where
  version := ⟨[⟨1000, 7⟩], [⟨1, 7⟩]⟩
  avl := noPairs
  block := fun _ => ⟨⟨1, 0, 1000, 0, 1, 1, 8⟩, 2000⟩

/-- A block of one's own. -/
theorem version_spared_new : Follows userCall (fun _ _ => ()) sparesVersion (fun _ _ => True)
    [.new 1 1 8 1 5000] ⟨plainVersion, []⟩ () := by
  have placed : Placed plainVersion.version plainVersion.block := by
    refine ⟨?_, ?_, ?_, ?_⟩ <;> simp [plainVersion, Fits]
  have able : callable (.new 1 1 8 1 5000) ⟨plainVersion, []⟩ := by
    refine ⟨rfl, by simp [plainVersion], fun q inTree => ?_, ?_, by simp [sizeofMemBlock]⟩
    · have wellFormed : WellFormed plainVersion.avl.key plainVersion.avl.mem .nil :=
        ⟨rfl, trivial, trivial, .nil⟩
      cases wellFormed.inTree_iff.mp inTree
    · rintro p ⟨low, _⟩ ⟨x, _, _, high⟩
      simp only [plainVersion, sizeofMemBlock] at low high
      omega
  have run : Meets userCall callable [.new 1 1 8 1 5000] ⟨plainVersion, []⟩ :=
    ⟨able, fun _ _ _ => trivial⟩
  exact (version_spared_iff placed rfl run).mpr ⟨trivial, fun _ _ _ => trivial⟩

end calls

end MoonInWater.Sync.Shadow
