import MoonInWater.RingBuffer.Fifo
import Mathlib.Algebra.Group.Action.Defs

/-! Message mode: when all calls ask for messages of one length, the ring holds whole
messages, and they leave it as they came. -/
namespace MoonInWater.RingBuffer
open Circular Threads
variable {B : Type} {bufferLen m : Nat} {c : Call B} {bytes : List B}

/-- All reads and writes are in message mode, for messages of length `m`. -/
def Call.Message (m : Nat) (c : Call B) : Prop :=
  c.Plain ∧ (c.op ≠ .close → c.flags.msgmode = true ∧ c.data.length = m)

instance (m : Nat) (c : Call B) : Decidable (c.Message m) := inferInstanceAs (Decidable (_ ∧ _))

def Messages (m : Nat) (s : Config (Shared B) (Call B)) : Prop := ∀ call ∈ s.calls, call.Message m

instance : DecidablePred (Messages (B := B) m) := fun _ => List.decidableBAll ..

abbrev MessageRuns (m : Nat) := (calls (B := B)).ReachesWithin (Messages m)

/-- The messages that the sections of an operation have copied, in order. -/
def messages (op : Op) (log : List (Op × List B)) : List (List B) :=
  log.filterMap fun e => if e.1 = op ∧ e.2.isEmpty = false then some e.2 else none

/-- The messages that the calls of an operation have copied. -/
def delivered (op : Op) (ls : List (Call B)) : List (List B) :=
  ls.filterMap fun c => if c.op = op ∧ c.moved.isEmpty = false then some c.moved else none

/-- The messages in the ring, and that each call has copied its message or nothing. -/
structure Whole (bufferLen m : Nat) (s : Config (Shared B) (Call B)) : Prop where
  bytes : Invariant bufferLen s
  queue : ∃ queue : List (List B), content s.shared.ring = queue.flatten ∧
    (∀ x ∈ queue, x.length = m) ∧
    messages .write s.shared.log = messages .read s.shared.log ++ queue
  log : ∀ e ∈ s.shared.log, e.2 = [] ∨ e.2.length = m
  calls : ∀ call ∈ s.calls, call.op ≠ .close →
    call.data.length = m ∧ (call.moved = [] ∨ call.moved.length = m)
  delivers : ∀ op, (delivered op s.calls).Perm (messages op s.shared.log)

theorem messages_append (op : Op) (log : List (Op × List B)) (e : Op × List B) :
    messages op (log ++ [e]) =
      messages op log ++ if e.1 = op ∧ e.2.isEmpty = false then [e.2] else [] := by
  rw [messages, List.filterMap_append]
  congr 1
  by_cases some' : e.1 = op ∧ e.2.isEmpty = false
  · rw [if_pos some', List.filterMap_cons, if_pos some']
    rfl
  · rw [if_neg some', List.filterMap_cons, if_neg some']
    rfl

theorem delivered_split (op : Op) (pre post : List (Call B)) (c : Call B) :
    delivered op (pre ++ c :: post) = delivered op pre ++
      ((if c.op = op ∧ c.moved.isEmpty = false then [c.moved] else []) ++ delivered op post) := by
  rw [delivered, List.filterMap_append, List.filterMap_cons]
  by_cases some' : c.op = op ∧ c.moved.isEmpty = false
  · rw [if_pos some', if_pos some']
    rfl
  · rw [if_neg some', if_neg some']
    rfl

theorem initial_whole {flags : Flags} {storage : List B} (positive : 0 < bufferLen)
    (small : bufferLen + 1 < 2 ^ 31) (size : storage.length = bufferLen + 1) :
    Whole bufferLen m (initial bufferLen flags storage) := by
  have inv := initial_invariant flags positive small size
  refine ⟨inv, ⟨[], ?_, by simp, rfl⟩, by simp [initial], by simp [initial], fun op => .refl _⟩
  have fifo := inv.fifo
  exact fifo.symm

/-- The first message of the ring is what a read takes. -/
theorem queue_head {queue : List (List B)} {after : List B} (whole : ∀ x ∈ queue, x.length = m)
    (count : bytes.length = m) (positive : 0 < m) (front : queue.flatten = bytes ++ after) :
    ∃ rest, queue = bytes :: rest ∧ rest.flatten = after := by
  cases queue with
  | nil =>
    have length := congrArg List.length front
    simp only [List.flatten_nil, List.length_nil, List.length_append] at length
    omega
  | cons x rest =>
    rw [List.flatten_cons] at front
    have same := (whole x (List.mem_cons_self ..)).trans count.symm
    obtain ⟨rfl, rfl⟩ := List.append_inj front same
    exact ⟨rest, rfl, rfl⟩

/-- A step copies a whole message of a call that had none, or nothing. -/
theorem moves_whole {r r' : Ring B} {c' : Call B} (moves : Moves bufferLen r c r' c' bytes)
    (message : c.op ≠ .close → c.flags.msgmode = true ∧ c.data.length = m)
    (before : c.op ≠ .close → c.moved = [] ∨ c.moved.length = m) :
    (bytes = [] ∧ c'.moved = c.moved) ∨
      (c.op ≠ .close ∧ bytes.length = m ∧ c.moved = [] ∧ c'.moved = bytes) := by
  have moved := moves.moved
  by_cases close : c.op = .close
  · have passes := moves.passes
    rw [close] at passes
    rw [passes.1, List.append_nil] at moved
    exact .inl ⟨passes.1, moved⟩
  · obtain ⟨msgmode, length⟩ := message close
    rcases moves.whole msgmode with none | all
    · rw [none, List.append_nil] at moved
      exact .inl ⟨none, moved⟩
    · rw [moved, List.length_append, length] at all
      rcases before close with none | whole
      · rw [none, List.nil_append] at moved
        rw [none, List.length_nil, Nat.zero_add] at all
        exact .inr ⟨close, all, none, moved⟩
      · have none : bytes = [] := List.length_eq_zero_iff.mp (by omega)
        rw [none, List.append_nil] at moved
        exact .inl ⟨none, moved⟩

theorem messages_empty (op op' : Op) (log : List (Op × List B)) :
    messages op (log ++ [(op', [])]) = messages op log := by
  simp [messages_append]

theorem step_whole {a : Answer} {g g' : Shared B} {pre post : List (Call B)} {l l' : Call B}
    (positive : 0 < m) (inv : Whole bufferLen m ⟨g, pre ++ l :: post⟩)
    (acted : calls.step a g l = some (g', l')) (ok : Messages m ⟨g', pre ++ l' :: post⟩) :
    Whole bufferLen m ⟨g', pre ++ l' :: post⟩ := by
  obtain ⟨call, closes⟩ := inv.bytes.calls l (by simp)
  obtain ⟨bytes, moves, log⟩ := step_moves inv.bytes.ring call closes acted
  obtain ⟨queue, content_eq, whole, fifo⟩ := inv.queue
  have message := (ok l' (by simp)).2
  rw [moves.op, moves.flags, moves.length] at message
  have own := fun open' => (inv.calls l (by simp) open').2
  have logged : ∀ e ∈ g'.log, e.2 = [] ∨ e.2.length = m := by
    intro e member
    rw [log] at member
    rcases List.mem_append.mp member with old | new
    · exact inv.log e old
    · rw [List.mem_singleton.mp new]
      rcases moves_whole moves message own with ⟨none, _⟩ | ⟨_, count, _⟩
      · exact .inl none
      · exact .inr count
  have passes := moves.passes
  simp only at content_eq fifo
  rcases moves_whole moves message own with ⟨none, same⟩ | ⟨open', count, empty, all⟩
  · subst none
    have still : content g'.ring = content g.ring := by
      cases op : l.op with
      | read =>
        rw [op] at passes
        exact passes.symm
      | write =>
        rw [op] at passes
        exact passes.trans (List.append_nil _)
      | close =>
        rw [op] at passes
        exact passes.2
    refine ⟨step_invariant inv.bytes acted, ⟨queue, still.trans content_eq, whole, ?_⟩, logged,
      ?_, ?_⟩
    · simp only [log, messages_empty]
      exact fifo
    · refine forall_split inv.calls ?_ fun x _ kept => kept
      rw [moves.op, same, moves.length]
      exact inv.calls l (by simp)
    · intro op
      have kept := inv.delivers op
      simp only [delivered_split] at kept ⊢
      rw [moves.op, same]
      simpa only [log, messages_empty] using kept
  · have nonempty : bytes.isEmpty = false := by
      rw [List.isEmpty_eq_false_iff]
      rintro rfl
      simp only [List.length_nil] at count
      omega
    refine ⟨step_invariant inv.bytes acted, ?_, logged, ?_, ?_⟩
    · simp only [log, messages_append, nonempty, and_true]
      cases op : l.op with
      | read =>
        rw [op] at passes
        have front : queue.flatten = bytes ++ content g'.ring := content_eq.symm.trans passes
        obtain ⟨rest, rfl, after⟩ := queue_head whole count positive front
        refine ⟨rest, after.symm, fun x member => whole x (List.mem_cons_of_mem _ member), ?_⟩
        simp only [reduceCtorEq, if_false, if_true, List.append_nil, List.append_assoc]
        exact fifo
      | write =>
        rw [op] at passes
        refine ⟨queue ++ [bytes], ?_, ?_, ?_⟩
        · rw [passes, content_eq, List.flatten_append, List.flatten_singleton]
        · intro x member
          rcases List.mem_append.mp member with old | new
          · exact whole x old
          · rw [List.mem_singleton.mp new, count]
        · simp only [reduceCtorEq, if_false, if_true, List.append_nil]
          rw [fifo, List.append_assoc]
      | close => exact absurd op open'
    · refine forall_split inv.calls ?_ fun x _ kept => kept
      rw [all, moves.length]
      exact fun _ => ⟨(message open').2, .inr count⟩
    · intro op
      have kept := inv.delivers op
      simp only [delivered_split, empty, List.isEmpty_nil, reduceCtorEq, and_false, if_false,
        List.nil_append] at kept
      simp only [delivered_split, log, messages_append, moves.op, all, nonempty, and_true]
      by_cases mine : l.op = op
      · simp only [mine, if_true]
        have moved : (delivered op pre ++ bytes :: delivered op post).Perm _ := List.perm_middle
        exact (moved.trans (kept.cons bytes)).trans (List.perm_append_singleton ..).symm
      · simp only [mine, if_false, List.nil_append, List.append_nil]
        exact kept

theorem start_whole {a : Args B} {g g' : Shared B} {ls : List (Call B)} {l : Call B}
    (inv : Whole bufferLen m ⟨g, ls⟩) (started : calls.start a g = some (g', l))
    (ok : Messages m ⟨g', ls ++ [l]⟩) : Whole bufferLen m ⟨g', ls ++ [l]⟩ := by
  have bytes := start_invariant inv.bytes started fun call member => (ok call member).1
  have new := (ok l (by simp)).2
  cases started
  obtain ⟨_, _, _, moved⟩ := enter_kept g.ring a
  refine ⟨bytes, inv.queue, inv.log, ?_, fun op => ?_⟩
  · exact forall_start inv.calls (fun open' => ⟨(new open').2, .inl moved⟩) fun _ kept => kept
  · have kept := inv.delivers op
    rw [delivered_split, moved]
    simpa [delivered] using kept

theorem runs_whole {s s' : Config (Shared B) (Call B)} (positive : 0 < m)
    (inv : Whole bufferLen m s) (run : MessageRuns m s s') : Whole bufferLen m s' :=
  Program.ReachesWithin.invariant inv (fun inv started ok => start_whole inv started ok)
    (fun inv acted ok => step_whole positive inv acted ok) run

/-- Messages of one length leave the ring whole, each once and in the order in which
they came. -/
theorem ring_messages {flags : Flags} {storage : List B} {s : Config (Shared B) (Call B)}
    (positive : 0 < bufferLen) (small : bufferLen + 1 < 2 ^ 31)
    (size : storage.length = bufferLen + 1) (nonempty : 0 < m)
    (run : MessageRuns m (initial bufferLen flags storage) s) :
    m ∣ (content s.shared.ring).length ∧
      (∀ e ∈ s.shared.log, e.2 = [] ∨ e.2.length = m) ∧
      (∃ queue : List (List B), content s.shared.ring = queue.flatten ∧
        (∀ x ∈ queue, x.length = m) ∧
        messages .read s.shared.log ++ queue = messages .write s.shared.log) ∧
      (∀ op, (delivered op s.calls).Perm (messages op s.shared.log)) ∧
      ∀ call ∈ s.calls, call.op ≠ .close → ∀ v, call.pc = .done v →
        (v = m ∧ call.moved = call.data) ∨ ((v = 0 ∨ v = -1) ∧ call.moved = []) := by
  have inv := runs_whole nonempty (initial_whole positive small size) run
  obtain ⟨queue, content_eq, whole, fifo⟩ := inv.queue
  refine ⟨?_, inv.log, ⟨queue, content_eq, whole, fifo.symm⟩, inv.delivers, ?_⟩
  · have each : ∀ n ∈ queue.map List.length, n = m := by
      intro n member
      obtain ⟨x, inQueue, rfl⟩ := List.mem_map.mp member
      exact whole x inQueue
    rw [content_eq, List.length_flatten, List.sum_eq_card_nsmul _ m each, smul_eq_mul]
    exact Nat.dvd_mul_left ..
  · intro call member open' v done
    obtain ⟨ok, _⟩ := inv.bytes.calls call member
    obtain ⟨length, moved⟩ := inv.calls call member open'
    have ret := ok.ret v done
    rcases moved with none | all
    · refine .inr ⟨ret.imp (fun value => ?_) fun value => value.1, none⟩
      rw [value, none]
      rfl
    · have copied := ok.copied
      rw [all, ← length, List.take_length] at copied
      rcases ret with value | ⟨_, none, _⟩
      · exact .inl ⟨by rw [value, all], copied.symm⟩
      · rw [none] at all
        exact absurd all (Nat.ne_of_lt nonempty)

/-- Two messages of two bytes on three cells: the second write fails, and succeeds once
the first message has been read. -/
def messageSchedule : List (Args Nat ⊕ Nat × Answer) :=
  let flags := { noFlags with msgmode := true, nowait := true }
  [starts .write flags [1, 2], turn 0, starts .write flags [3, 4], turn 1,
    starts .read flags [0, 0], turn 2, starts .write flags [5, 6], turn 3]

theorem ring_messages_wrap :
    ∃ s, calls.exec (Messages 2) messageSchedule (initial 3 noFlags [0, 0, 0, 0]) = some s ∧
      2 ∣ (content s.shared.ring).length ∧
      (delivered .write s.calls).Perm (messages .write s.shared.log) := by
  obtain ⟨s, executed⟩ := Option.isSome_iff_exists.mp (by with_unfolding_all rfl :
    (calls.exec (Messages 2) messageSchedule (initial 3 noFlags [0, 0, 0, 0])).isSome)
  have holds := ring_messages (by decide) (by decide) rfl (by decide)
    (Program.exec_reaches executed)
  exact ⟨s, executed, holds.1, holds.2.2.2.1 .write⟩

end MoonInWater.RingBuffer
