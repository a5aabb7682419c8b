import MoonInWater.Session.RecvHub

/-! The two ways to take a packet from a hub, get_from_head and get_from_head_len. -/
namespace MoonInWater.Session.RecvHub
open Chain Fuel
variable {P B : Type}

/-- The hub is empty, or its head packet is not ready. -/
def NotReady (s : State P B) : Prop := ∀ p ∈ s.hub.pHead, (s.block p).flags &&& isReady = 0

/-- Two calls return the same chain of blocks and leave the same hub. -/
structure Same (s₁ s₂ : State P B) (p₁ p₂ : Option P) : Prop where
  first : p₁ = p₂
  chain : ∀ l, Segment s₁.next p₁ l none ↔ Segment s₂.next p₂ l none
  pHead : s₁.hub.pHead = s₂.hub.pHead
  pTail : s₁.hub.pTail = s₂.hub.pTail
  totalLen : s₁.hub.totalLen = s₂.hub.totalLen

/-- The test of get_from_head asks for the head of a packet that is not ready. -/
theorem takes_iff {flags : BitVec 16} (head : flags &&& isHead ≠ 0) :
    flags &&& (isReady ||| isHead) = (isHead ||| isHead) ↔ flags &&& isReady = 0 := by
  have bit := BitVec.and_twoPow flags 0
  have bit' := BitVec.and_twoPow flags 1
  change flags &&& isReady = if flags.getLsbD 0 then isReady else 0 at bit
  change flags &&& isHead = if flags.getLsbD 1 then isHead else 0 at bit'
  rw [bit'] at head
  have set : flags.getLsbD 1 = true := by
    by_contra unset
    exact head (if_neg unset)
  rw [BitVec.and_or_distrib_left, bit, bit', if_pos set]
  split <;> decide

variable [DecidableEq P]

theorem getFromHead_ready {s : State P B} (first : s.hub.pHead = some p)
    (live : 0 < s.refNum (s.block p).buf) (head : (s.block p).flags &&& isHead ≠ 0)
    (ready : (s.block p).flags &&& isReady ≠ 0) (fuel : Nat) :
    getFromHead fuel s = some (s, none) := by
  have untaken : ¬ (s.block p).flags &&& (isReady ||| isHead) = (isHead ||| isHead) :=
    fun same => ready ((takes_iff head).mp same)
  unfold getFromHead
  simp only [first, State.read_live live, Option.bind_eq_bind, Option.bind_some, if_neg untaken]

theorem getFromHead_notReady {s s' : State P B} (first : s.hub.pHead = some p)
    (live : 0 < s.refNum (s.block p).buf) (head : (s.block p).flags &&& isHead ≠ 0)
    (ready : (s.block p).flags &&& isReady = 0) {fuel : Nat} {r : Option P}
    (call : getFromHead fuel s = some (s', r)) : r = some p := by
  have taken := (takes_iff head).mpr ready
  unfold getFromHead at call
  simp only [first, State.read_live live, Option.bind_eq_bind, Option.bind_some, if_pos taken]
    at call
  obtain ⟨ended, _, result⟩ := Option.bind_eq_some_iff.mp call
  cases result
  rfl

variable [DecidableEq B]

/-- Both functions take the head packet, and nothing where there is none that is ready. -/
def Agree (stale : Option P) (len : Int) (s : State P B) : Prop :=
  ∃ s₁ p₁ s₂ p₂ offset, Returns (fun fuel => getFromHead fuel s) (s₁, p₁) ∧
    Returns (fun fuel => getFromHeadLen stale len fuel s) (s₂, p₂, offset) ∧ Same s₁ s₂ p₁ p₂ ∧
    (p₁ = none ↔ NotReady s) ∧ (p₂ = none ↔ NotReady s) ∧
    (NotReady s → s₁ = s ∧ s₂ = s)

/-- The functions agree only on the empty hub, and there only where the local variable that
get_from_head_len returns without a value happens to hold NULL. -/
theorem agree_iff {s : State P B} {packets : List (List P)} {stale : Option P} {len : Int}
    (holds : HoldsPackets s packets) : Agree stale len s ↔ packets = [] ∧ stale = none := by
  constructor
  · rintro ⟨s₁, p₁, s₂, p₂, offset, head, headLen, same, none₁, none₂, _⟩
    cases packets with
    | nil =>
      have empty : s.hub.pHead = none := holds.pHead
      have call : Returns (fun fuel => getFromHeadLen stale len fuel s)
          (s, stale, s.hub.headOffset) := by
        refine .of_eq fun fuel => ?_
        unfold getFromHeadLen
        simp only [empty]
      cases headLen.unique call
      have idle : NotReady s := by
        intro p there
        rw [empty] at there
        contradiction
      exact ⟨rfl, none₂.mpr idle⟩
    | cons l rest =>
      obtain ⟨p, r, rfl⟩ := (holds.ends l List.mem_cons_self).exists_cons
      have first : s.hub.pHead = some p := holds.pHead
      have live := holds.live p List.mem_cons_self
      have marked := holds.heads _ List.mem_cons_self p rfl
      exfalso
      by_cases ready : (s.block p).flags &&& isReady = 0
      · have idle : NotReady s := by
          intro q there
          cases first.symm.trans there
          exact ready
        obtain ⟨n, runs⟩ := head
        have taken :=
          getFromHead_notReady first live marked ready (runs (n + 1) (Nat.lt_succ_self n))
        exact Option.some_ne_none p (taken.symm.trans (none₁.mpr idle))
      · have refused := head.unique (.of_eq (getFromHead_ready first live marked ready))
        cases refused
        exact ready (none₁.mp rfl p first)
  · rintro ⟨rfl, rfl⟩
    have empty : s.hub.pHead = none := holds.pHead
    have idle : NotReady s := by
      intro p there
      rw [empty] at there
      contradiction
    refine ⟨s, none, s, none, s.hub.headOffset, .of_eq fun fuel => ?_, .of_eq fun fuel => ?_,
      ⟨rfl, fun _ => Iff.rfl, rfl, rfl, rfl⟩, iff_of_true rfl idle, iff_of_true rfl idle,
      fun _ => ⟨rfl, rfl⟩⟩
    · unfold getFromHead
      simp only [empty]
    · unfold getFromHeadLen
      simp only [empty]

/-- A hub with one packet of one block, which is ready. -/
def oneReady : State Nat Nat where
  block _ := ⟨0, [1, 2, 3], isReady ||| isHead ||| isTail, none⟩
  refNum _ := 1
  bufLen _ := 64
  memUsed := 64
  hub := ⟨3, some 0, some 0, 0⟩

theorem oneReady_holds : HoldsPackets oneReady [[0]] where
  chain := ⟨rfl, rfl⟩
  distinct := by decide
  pTail := rfl
  ends := by simp [flags, Ends, oneReady, isReady, isHead, isTail]
  heads := by simp [oneReady, isReady, isHead, isTail]
  filled := by simp [oneReady]
  live := by simp [oneReady]

theorem agree_iff_oneReady : Agree none 3 oneReady ↔
    [[0]] = ([] : List (List Nat)) ∧ none = (none : Option Nat) :=
  agree_iff oneReady_holds

/-- get_from_head leaves a packet that is ready in the hub, get_from_head_len takes it. -/
theorem oneReady_disagrees : ¬ Agree none 3 oneReady := by
  rintro ⟨s₁, p₁, s₂, p₂, offset, head, _, _, none₁, _⟩
  have refused : Returns (fun fuel => getFromHead fuel oneReady) (oneReady, none) :=
    .of_eq fun _ => rfl
  cases head.unique refused
  have unready := none₁.mp rfl 0 rfl
  revert unready
  decide

end MoonInWater.Session.RecvHub
