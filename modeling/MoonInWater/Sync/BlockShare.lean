import MoonInWater.Lib.Counted
import MoonInWater.Lib.Jobs
import MoonInWater.Sync.VersionStatus

/-! The blocks that the versions of an entity share: the references that _create_new_version takes,
those that version_close_func drops, and mem_block_ref_dec, which frees a block with the last
one. Each atomic operation on a count or on the status of a version is one step. -/
namespace MoonInWater.Sync.BlockShare
open Counted Jobs Threads CInt UseingRef
open VersionStatus (oldValue decValue decCloses versionStatusNormal versionStatusOld
  versionStatusClosed)

/-- The status of a version, without the count of its users. -/
inductive Status where
  | normal
  | old
  | closed
deriving DecidableEq

/-- version_info_s as to its blocks, which are in order_id. -/
structure Version where
  orderId : List Nat
  status : Status
  users : Nat
deriving DecidableEq

/-- The mem_block_s, whose value is p_original_block, and the versions, each in the order in which
they were allocated. -/
structure State where
  blocks : Store (Option Nat)
  versions : List Version
deriving DecidableEq

/-- What the loop of _create_new_version does with a block of the base. -/
inductive Part where
  | del
  | write
  | keep
deriving DecidableEq

/-- What a call has left to do. `merge` has taken the references of `made`, and has the user of the
base with it, as has `useing`. -/
inductive Job where
  | createNewVersion (v : Nat) (parts : List Part) (news : Nat)
  | merge (v : Nat) (todo : List (Part × Nat)) (news : Nat) (made : List Nat)
  | incVersionUserNum (v : Nat)
  | useing (v : Nat)
  | decVersionUserNum (v : Nat)
  | setVersionStatusOld (v : Nat)
  | memBlockRefDec (p : Nat)
  | free (p : Nat)
deriving DecidableEq

/-- A user goes on or is done with its version; an allocation or a test of the packet succeeds or
fails. -/
inductive Answer where
  | goesOn
  | ends
deriving DecidableEq

inductive Entry where
  | createNewVersion (v : Nat) (parts : List Part) (news : Nat)
  | user (v : Nat)
  | setVersionStatusOld (v : Nat)
deriving DecidableEq

def enter : Entry → List Job
  | .createNewVersion v parts news => [.createNewVersion v parts news]
  | .user v => [.incVersionUserNum v]
  | .setVersionStatusOld v => [.setVersionStatusOld v]

def State.setVersion (g : State) (v : Nat) (version : Version) : State :=
  { g with versions := g.versions.modify v fun _ => version }

/-- inc_version_user_num, with what the call does as a user. -/
def incUser (g : State) (v : Nat) (jobs : Version → List Job) : Option (State × List Job) :=
  match g.versions[v]? with
  | none => none
  | some version =>
    if version.status = .closed then some (g, [])
    else some (g.setVersion v { version with users := version.users + 1 }, jobs version)

/-- version_close_func -/
def versionCloseFunc (version : Version) : List Job := version.orderId.map .memBlockRefDec

/-- dec_version_user_num -/
def decUser (g : State) (v : Nat) : Option (State × List Job) :=
  match g.versions[v]? with
  | none => none
  | some version =>
    if version.users = 1 ∧ version.status ≠ .normal then
      some (g.setVersion v { version with status := .closed, users := 0 },
        versionCloseFunc version)
    else some (g.setVersion v { version with users := version.users - 1 }, [])

/-- set_version_status_old -/
def setVersionStatusOld (g : State) (v : Nat) : Option (State × List Job) :=
  match g.versions[v]? with
  | none => none
  | some version =>
    if version.status = .normal then
      if version.users = 0 then
        some (g.setVersion v { version with status := .closed }, versionCloseFunc version)
      else some (g.setVersion v { version with status := .old }, [])
    else some (g, [])

/-- The path of _create_new_version from `error` on. -/
def failed (v : Nat) (made : List Nat) : List Job :=
  made.map .memBlockRefDec ++ [.decVersionUserNum v]

/-- A step of the loops of _create_new_version over the blocks of the base and the new ones; behind
them the new version is there. -/
def mergeStep (g : State) (v : Nat) (news : Nat) (made : List Nat) :
    List (Part × Nat) → Option (State × List Job)
  | (.del, _) :: todo => some (g, [.merge v todo news made])
  | (.keep, p) :: todo =>
    some ({ g with blocks := take g.blocks p }, [.merge v todo news (made ++ [p])])
  | (.write, p) :: todo =>
    match g.blocks[p]? with
    | none => none
    | some block =>
      -- mem_block_surface_dump: a copy of a copy has the same original
      let original := block.value.getD p
      some ({ g with blocks := make (take g.blocks original) (some original) },
        [.merge v todo news (made ++ [g.blocks.length])])
  | [] =>
    match news with
    | 0 => some ({ g with versions := g.versions ++ [⟨made, .normal, 0⟩] }, [.decVersionUserNum v])
    | n + 1 =>
      some ({ g with blocks := make g.blocks none },
        [.merge v [] n (made ++ [g.blocks.length])])

/-- What mem_block_ref_dec does with a block that has no reference left. -/
def lastRef (original : Option Nat) (p : Nat) : List Job :=
  original.toList.map .memBlockRefDec ++ [.free p]

/-- mem_block_ref_dec -/
def memBlockRefDec (g : State) (p : Nat) : Option (State × List Job) :=
  match g.blocks[p]? with
  | none => none
  | some block =>
    some ({ g with blocks := drop g.blocks p },
      if block.count - 1 = 0 then lastRef block.value p else [])

def act (a : Answer) (job : Job) (g : State) : Option (State × List Job) :=
  match job with
  | .createNewVersion v parts news =>
    incUser g v fun version => [.merge v (parts.zip version.orderId) news []]
  | .merge v todo news made =>
    match a with
    | .goesOn => mergeStep g v news made todo
    | .ends => some (g, failed v made)
  | .incVersionUserNum v => incUser g v fun _ => [.useing v]
  | .useing v =>
    match a with
    | .goesOn => some (g, [.useing v])
    | .ends => some (g, [.decVersionUserNum v])
  | .decVersionUserNum v => decUser g v
  | .setVersionStatusOld v => setVersionStatusOld g v
  | .memBlockRefDec p => memBlockRefDec g p
  | .free p => some ({ g with blocks := Counted.free g.blocks p }, [])

def versions : Program State (Call Entry Job) Entry Answer := program enter act

/-- A first version with `n` blocks of its own. -/
def initial (n : Nat) : Config State (Call Entry Job) :=
  ⟨⟨List.replicate n ⟨1, none, 0⟩, [⟨List.range n, .normal, 0⟩]⟩, []⟩

def Status.bits : Status → Int
  | .normal => versionStatusNormal
  | .old => versionStatusOld
  | .closed => versionStatusClosed

/-- The int in which a version has its status and its users. -/
def Version.word (version : Version) : Int := 16 * version.users + version.status.bits

section word
variable {version : Version}

theorem bits_eq (status : Status) : status = .normal ∧ status.bits = 0 ∨
    status = .old ∧ status.bits = 1 ∨ status = .closed ∧ status.bits = 15 := by
  cases status with
  | normal => exact .inl ⟨rfl, rfl⟩
  | old => exact .inr (.inl ⟨rfl, rfl⟩)
  | closed => exact .inr (.inr ⟨rfl, rfl⟩)

theorem closed_word : Closed version.word ↔ version.status = .closed := by
  rw [Closed, nibble, Version.word, statusClosed]
  rcases bits_eq version.status with ⟨is, bits⟩ | ⟨is, bits⟩ | ⟨is, bits⟩ <;> rw [is] at bits ⊢ <;>
    simp [bits]

theorem inc_closed (closed : version.status = .closed) :
    refStep version.word .inc = (version.word, .ret (-1)) := by
  simp [refStep, closed_word, closed]

theorem inc_word (opened : version.status ≠ .closed) (room : version.users + 1 < 2 ^ 27) :
    refStep version.word .inc = (version.word, .goto (.incSwap version.word)) ∧
      refStep version.word (.incSwap version.word) =
        (Version.word { version with users := version.users + 1 }, .ret 0) := by
  have more : Version.word { version with users := version.users + 1 } = version.word + 16 := by
    rw [Version.word, Version.word]
    push_cast
    omega
  have kept : i32 (version.word + 16) = version.word + 16 := by
    have bits := bits_eq version.status
    rw [Version.word]
    apply i32_eq <;> omega
  constructor
  · simp [refStep, closed_word, opened]
  · rw [more, refStep, if_pos rfl, useingRefUnit, kept]

/-- The swap of dec_version_user_num. -/
theorem dec_word (opened : version.status ≠ .closed) (used : 0 < version.users)
    (room : version.users < 2 ^ 27) :
    if version.users = 1 ∧ version.status ≠ .normal then
      decCloses version.word ∧
        decValue version.word = Version.word { version with status := .closed, users := 0 }
    else ¬ decCloses version.word ∧
      decValue version.word = Version.word { version with users := version.users - 1 } := by
  have bits := bits_eq version.status
  have last : version.word = versionStatusOld + useingRefUnit ↔
      version.users = 1 ∧ version.status ≠ .normal := by
    rw [Version.word, useingRefUnit]
    change _ = (1 : Int) + 16 ↔ _
    rcases bits with ⟨is, bits⟩ | ⟨is, bits⟩ | ⟨is, bits⟩ <;> rw [bits] <;>
      simp [is] at opened ⊢ <;> omega
  have other : version.word ≠ versionStatusClosed + useingRefUnit := by
    rw [Version.word, useingRefUnit]
    change _ ≠ (15 : Int) + 16
    intro same
    rcases bits with ⟨-, bits⟩ | ⟨-, bits⟩ | ⟨is, -⟩
    · omega
    · omega
    · exact opened is
  split
  next closes =>
    refine ⟨.inl (last.mpr closes), ?_⟩
    rw [decValue, if_pos (last.mpr closes)]
    rfl
  next stays =>
    refine ⟨fun closes => closes.elim (fun here => stays (last.mp here)) other, ?_⟩
    rw [decValue, if_neg fun here => stays (last.mp here), Version.word, Version.word,
      useingRefUnit, i32_eq]
    · dsimp only
      omega
    · omega
    · omega

/-- The test and the swap of set_version_status_old. -/
theorem old_word : (nibble version.word = versionStatusNormal ↔ version.status = .normal) ∧
    (version.status = .normal → oldValue version.word =
      if version.users = 0 then Version.word { version with status := .closed }
      else Version.word { version with status := .old }) := by
  have bits := bits_eq version.status
  constructor
  · rw [nibble, Version.word]
    change _ = (0 : Int) ↔ _
    rcases bits with ⟨is, bits⟩ | ⟨is, bits⟩ | ⟨is, bits⟩ <;> rw [bits] <;> simp [is]
  · intro normal
    have word : version.word = 16 * version.users := by
      rw [Version.word, normal]
      exact add_zero _
    rw [oldValue, word, nibble, versionStatusNormal]
    by_cases unused : version.users = 0
    · rw [if_pos unused, if_pos (by omega), Version.word, unused]
      rfl
    · rw [if_neg unused, if_neg (by omega), Version.word]
      change _ = 16 * (version.users : Int) + versionStatusOld
      omega

end word
end MoonInWater.Sync.BlockShare
