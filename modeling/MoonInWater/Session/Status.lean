import MoonInWater.Lib.Threads

/-! The status word of a session: its flags, and the units of the tasks that use it. -/
namespace MoonInWater.Session.Status

abbrev Flags := BitVec 8

def sessionGoawayRecv : Flags := 0x1
def sessionGoawaySend : Flags := 0x2
def sessionRecving : Flags := 0x4
def sessionSending : Flags := 0x8
def sessionCanRecv : Flags := 0x10
def sessionCanSend : Flags := 0x20
def sessionUseingUnit : Nat := 0x100

/-- Of stream_shut_flag, the two that session_send takes. -/
def streamCanSend : Flags := 0x4
def streamSending : Flags := 0x8

/-- STREAM_CLOSED of stream_status_e -/
def streamClosed : Nat := 7

/-- `status`: the byte of the flags, and the units above it. -/
structure Word where
  flags : Flags
  useing : Nat
deriving DecidableEq

def Word.value (w : Word) : Nat := w.flags.toNat + sessionUseingUnit * w.useing

/-- `status & mask` -/
def hasFlag (flags mask : Flags) : Bool := flags &&& mask == mask

def setFlag (flags mask : Flags) : Flags := flags ||| mask

def clearFlag (flags mask : Flags) : Flags := flags &&& ~~~mask

section bits
-- a mask `m` holds all bits of `n` (`within`) or none of them (`apart`)
variable {f m n : Flags}

theorem setFlag_has (within : m &&& n = n) : hasFlag (setFlag f m) n = true := by
  have kept : (f ||| m) &&& n = n := by
    rw [BitVec.and_or_distrib_right, within]
    ext i
    rw [BitVec.getElem_or, BitVec.getElem_and]
    cases n[i] <;> simp
  rw [hasFlag, setFlag, kept]
  exact beq_self_eq_true n

theorem setFlag_apart (apart : m &&& n = 0) : hasFlag (setFlag f m) n = hasFlag f n := by
  have same : (f ||| m) &&& n = f &&& n := by
    rw [BitVec.and_or_distrib_right, apart]
    exact BitVec.or_zero
  rw [hasFlag, setFlag, same, hasFlag]

theorem clearFlag_apart (apart : m &&& n = 0) : hasFlag (clearFlag f m) n = hasFlag f n := by
  have outside : ~~~m &&& n = n := by
    have whole : (~~~m ||| m) &&& n = n := by
      rw [BitVec.not_or_self]
      exact BitVec.allOnes_and
    rw [BitVec.and_or_distrib_right, apart] at whole
    exact BitVec.or_zero.symm.trans whole
  rw [hasFlag, clearFlag, BitVec.and_assoc, outside, hasFlag]

theorem clearFlag_lacks (within : m &&& n = n) (some : n ≠ 0) :
    hasFlag (clearFlag f m) n = false := by
  have outside : ~~~m &&& n = 0 := by
    rw [← within, ← BitVec.and_assoc, BitVec.and_comm (~~~m) m, BitVec.and_not_self]
    exact BitVec.zero_and
  have none : f &&& ~~~m &&& n = 0 := by
    rw [BitVec.and_assoc, outside]
    exact BitVec.and_zero
  rw [hasFlag, clearFlag, none]
  exact beq_false_of_ne some.symm

end bits

/-- IS_SESSION_CLOSED -/
def isSessionClosed (w : Word) : Bool := hasFlag w.flags sessionGoawayRecv

/-- IS_SESSION_FREED; IS_STREAM_CLOSED compares the whole word. -/
def isSessionFreed (w : Word) : Bool :=
  decide (w.value = streamClosed) && decide (w.value < sessionUseingUnit)

theorem isSessionFreed_iff (w : Word) :
    isSessionFreed w = true ↔ w.flags = 0x7 ∧ w.useing = 0 := by
  have bound := w.flags.isLt
  rw [isSessionFreed, Bool.and_eq_true, decide_eq_true_eq, decide_eq_true_eq, Word.value,
    streamClosed, sessionUseingUnit]
  constructor
  · rintro ⟨whole, _⟩
    have value : w.flags.toNat = 7 := by omega
    exact ⟨BitVec.eq_of_toNat_eq value, by omega⟩
  · rintro ⟨flags, useing⟩
    rw [flags, useing]
    decide

/-- Marked and without units. -/
def Idle (w : Word) : Prop := isSessionClosed w = true ∧ w.useing = 0

/-- The flags other than SESSION_GOAWAY_RECV under which the test finds the session freed. -/
def Exact (flags : Flags) : Prop := setFlag flags sessionGoawayRecv = 0x7

theorem isSessionFreed_iff_exact (w : Word) :
    isSessionFreed w = true ↔ Idle w ∧ Exact w.flags := by
  rw [isSessionFreed_iff, Idle, isSessionClosed, Exact]
  have flags : w.flags = 0x7 ↔
      hasFlag w.flags sessionGoawayRecv = true ∧ setFlag w.flags sessionGoawayRecv = 0x7 := by
    generalize w.flags = f
    revert f
    decide
  rw [flags]
  tauto

end MoonInWater.Session.Status
