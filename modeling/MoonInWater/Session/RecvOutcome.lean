import MoonInWater.Session.RecvLoops

/-! What a request leaves of the hub, wherever in a packet it ends. -/
namespace MoonInWater.Session.RecvHub
open Chain
variable {P B : Type}

section outcome
variable {s s' : State P B} {l rest touched left : List P} {q : P} {middle : Option P}
variable {k moved : Int}

theorem ends_suffix {front back : List (BitVec 16)} (ends : Ends (front ++ back))
    (more : back ≠ []) : Ends back := by
  induction front with
  | nil => exact ends
  | cons f front ih =>
    cases tail : front ++ back with
    | nil => exact absurd (List.append_eq_nil_iff.mp tail).2 more
    | cons g r =>
      rw [List.cons_append, tail] at ends
      rw [tail] at ih
      exact ih ends.2

/-- Marking a block as a head leaves its mark as a tail. -/
theorem mark_tail (f : BitVec 16) : (f ||| (isHead ||| isReady)) &&& isTail = f &&& isTail := by
  have apart : isTail &&& (isHead ||| isReady) = 0 := by decide
  rw [BitVec.and_comm, BitVec.and_or_distrib_left, apart, BitVec.and_comm]
  simp

theorem mark_ready (f : BitVec 16) :
    (f ||| (isHead ||| isReady)) &&& (isReady ||| isHead) = (isHead ||| isReady) := by
  rw [BitVec.or_comm isReady isHead]
  ext i inside
  simp only [BitVec.getElem_and, BitVec.getElem_or]
  grind

theorem ends_mark {f : BitVec 16} {r : List (BitVec 16)} (ends : Ends (f :: r)) :
    Ends ((f ||| (isHead ||| isReady)) :: r) := by
  cases r with
  | nil => exact (mark_tail f).trans_ne ends
  | cons g r => exact ⟨(mark_tail f).trans ends.1, ends.2⟩

/-- What stays of a packet is a packet again, once its first block is marked. -/
theorem kept_ends {front back : List P} (ends : Ends (flags s.block (front ++ q :: back)))
    (apart : q ∉ back)
    (same : ∀ r, r ≠ q → (s'.block r).flags = (s.block r).flags)
    (marked : (s'.block q).flags = (s.block q).flags ||| (isHead ||| isReady)) :
    Ends (flags s'.block (q :: back)) := by
  have kept : flags s'.block back = flags s.block back := by
    refine List.map_congr_left fun r member => same r ?_
    rintro rfl
    exact apart member
  have ends' : Ends (flags s.block front ++ flags s.block (q :: back)) := by
    rw [flags, List.map_append] at ends
    exact ends
  have first := ends_mark (ends_suffix ends' (by simp))
  rw [← marked] at first
  change Ends ((s'.block q).flags :: flags s'.block back)
  rw [kept]
  exact first

variable [DecidableEq P] [DecidableEq B]

/-- What a request leaves that asks for the bytes of the packet `l` up to position `k`. -/
structure Outcome (s : State P B) (l rest : List P) (k : Int) (s' : State P B) (moved : Int)
    (touched left : List P) : Prop where
  buf : ∀ q, (s'.block q).buf = (s.block q).buf
  payload : ∀ q, (s'.block q).payload = (s.block q).payload
  unmarked : ∀ q ∈ rest, (s'.block q).flags = (s.block q).flags
  handed : ∃ after, Segment s'.next l.head? touched after ∧
    (after = none ∨ k ≤ (bytes s.block touched).length)
  begun : (bytes s.block touched.dropLast).length < k
  within : ∀ q ∈ touched, q ∈ l
  covered : (bytes s.block touched).take k.toNat = (bytes s.block l).take k.toNat
  chain : Segment s'.next s'.hub.pHead (left ++ rest) none
  suffix : ∃ front, l = front ++ left
  ends : left ≠ [] → Ends (flags s'.block left)
  ready : ∀ q ∈ left.head?, (s'.block q).flags &&& (isReady ||| isHead) = (isHead ||| isReady)
  refs : ∀ b, s'.refNum b + (bufs s.block l).count b =
    s.refNum b + (bufs s.block touched).count b + (bufs s.block left).count b
  offset : 0 ≤ s'.hub.headOffset
  inside : ∀ q ∈ left.head?, s'.hub.headOffset < (s.block q).len
  start : left = [] → s'.hub.headOffset = 0
  whole : left = [] ↔ (bytes s.block l).length ≤ k
  remains : (bytes s.block left).drop s'.hub.headOffset.toNat = (bytes s.block l).drop k.toNat
  place : moved = min k (bytes s.block l).length
  totalLen : s'.hub.totalLen = s.hub.totalLen
  pTail : s'.hub.pTail = s.hub.pTail

section
variable {front back : List P} {last : P}

theorem outcome_whole (parts : l = front ++ [last])
    (chain : Segment s.next l.head? l middle) (behind : Segment s.next middle rest none)
    (distinct : (l ++ rest).Nodup) (filled : (s.block last).payload ≠ [])
    (short : (bytes s.block l).length ≤ k) (reached : moved = (bytes s.block l).length) :
    Outcome s l rest k
      { s.setNext last none with hub := { s.hub with headOffset := 0, pHead := middle } }
      moved l [] := by
  subst l
  have apart : ∀ q ∈ rest, q ≠ last := by
    rintro q member rfl
    exact (List.nodup_append.mp distinct).2.2 q (by simp) q member rfl
  refine {
    buf := fun q => setNext_buf
    payload := fun q => setNext_payload
    unmarked := fun q _ => setNext_flags
    handed := ⟨none, ?_, .inl rfl⟩
    begun := ?_
    within := fun q member => member
    covered := rfl
    chain := ?_
    suffix := ⟨_, (List.append_nil _).symm⟩
    ends := fun more => absurd rfl more
    ready := by simp
    refs := fun b => rfl
    offset := Int.le_refl 0
    inside := by simp
    start := fun _ => rfl
    whole := iff_of_true rfl short
    remains := ?_
    place := by omega
    totalLen := rfl
    pTail := rfl }
  · refine chain.cut distinct.of_append_left (fun q other => ?_) ?_
    · exact congrArg RsBlock.next (setNext_apart other)
    · exact congrArg RsBlock.next setNext_self
  · have less := filled_bytes filled front
    rw [List.dropLast_concat]
    omega
  · exact behind.congr fun q member => congrArg RsBlock.next (setNext_apart (apart q member))
  · have past : (bytes s.block (front ++ [last])).length ≤ k.toNat := by omega
    rw [List.drop_eq_nil_of_le past]
    rfl

theorem outcome_between (parts : l = front ++ last :: q :: back)
    (chain : Segment s.next l.head? l middle) (behind : Segment s.next middle rest none)
    (distinct : (l ++ rest).Nodup) (filled : ∀ p ∈ l, (s.block p).payload ≠ [])
    (ends : Ends (flags s.block l))
    (here : (bytes s.block (front ++ [last])).length = k) (reached : moved = k) :
    Outcome s l rest k
      { (s.setNext last none).mark q with
        hub := { s.hub with headOffset := 0, pHead := some q } }
      moved (front ++ [last]) (q :: back) := by
  have parts' : l = (front ++ [last]) ++ q :: back := by
    rw [parts, List.append_assoc]
    rfl
  subst parts'
  obtain ⟨handed, kept⟩ := chain.split
  have marked : (((s.setNext last none).mark q).block q).flags =
      (s.block q).flags ||| (isHead ||| isReady) := by rw [mark_flags, setNext_flags]
  refine {
    buf := fun r => mark_buf.trans setNext_buf
    payload := fun r => mark_payload.trans setNext_payload
    unmarked := fun r member => ?_
    handed := ⟨none, ?_, .inl rfl⟩
    begun := ?_
    within := ?_
    covered := ?_
    chain := ?_
    suffix := ⟨_, rfl⟩
    ends := fun _ => ?_
    ready := ?_
    refs := fun b => ?_
    offset := Int.le_refl 0
    inside := ?_
    start := fun none' => absurd none' (List.cons_ne_nil q back)
    whole := ?_
    remains := ?_
    place := ?_
    totalLen := rfl
    pTail := rfl }
  · have other : r ≠ q := by
      rintro rfl
      exact (List.nodup_append.mp distinct).2.2 r (by simp) r member rfl
    exact (congrArg RsBlock.flags (mark_apart other)).trans setNext_flags
  · refine handed.cut distinct.of_append_left.of_append_left (fun r other => ?_) ?_
    · exact mark_next.trans (congrArg RsBlock.next (setNext_apart other))
    · exact mark_next.trans (congrArg RsBlock.next setNext_self)
  · have less := filled_bytes (filled last (by simp)) front
    rw [List.dropLast_concat]
    omega
  · intro r member
    exact List.mem_append_left _ member
  · have reach : k.toNat = (bytes s.block (front ++ [last])).length := by omega
    rw [reach, bytes_append s.block (front ++ [last]), List.take_left, List.take_length]
  · have kept' := segment_append.mpr ⟨middle, kept, behind⟩
    refine kept'.congr fun r member => mark_next.trans (congrArg RsBlock.next (setNext_apart ?_))
    rintro rfl
    rw [List.append_assoc, List.nodup_append] at distinct
    exact distinct.2.2 r (by simp) r member rfl
  · refine kept_ends ends ?_ (fun r other => ?_) ?_
    · rw [List.append_assoc, List.nodup_append] at distinct
      exact (List.nodup_cons.mp distinct.2.1.of_append_left).1
    · exact (congrArg RsBlock.flags (mark_apart other)).trans setNext_flags
    · exact marked
  · rintro r same
    cases same
    exact (congrArg (· &&& (isReady ||| isHead)) marked).trans (mark_ready _)
  · change s.refNum b + _ = _
    rw [bufs_append s.block (front ++ [last]), List.count_append]
    omega
  · rintro r same
    cases same
    exact Int.natCast_pos.mpr (List.length_pos_iff.mpr (filled q (by simp)))
  · refine iff_of_false (List.cons_ne_nil q back) ?_
    have one := List.length_pos_iff.mpr (filled q (by simp))
    rw [bytes_append s.block (front ++ [last]), List.length_append, bytes_cons, List.length_append]
    omega
  · have reach : k.toNat = (bytes s.block (front ++ [last])).length := by omega
    rw [reach, bytes_append s.block (front ++ [last]), List.drop_left]
    rfl
  · rw [bytes_append s.block (front ++ [last]), List.length_append]
    omega

theorem outcome_inside {offset : Int} (parts : l = front ++ q :: back)
    (chain : Segment s.next l.head? l middle) (behind : Segment s.next middle rest none)
    (distinct : (l ++ rest).Nodup) (ends : Ends (flags s.block l))
    (begun : (bytes s.block front).length < k) (less : k < (bytes s.block (front ++ [q])).length)
    (place : offset = k - (bytes s.block front).length) (reached : moved = k) :
    Outcome s l rest k
      { (s.rsBufRefInc (s.block q).buf).mark q with
        hub := { s.hub with headOffset := offset, pHead := some q } }
      moved (front ++ [q]) (q :: back) := by
  subst l
  obtain ⟨handed, kept⟩ := chain.split
  have size : (bytes s.block (front ++ [q])).length =
      (bytes s.block front).length + (s.block q).payload.length := by
    rw [bytes_append, bytes_cons, bytes_nil, List.append_nil, List.length_append]
  have total : (bytes s.block (front ++ q :: back)).length =
      (bytes s.block (front ++ [q])).length + (bytes s.block back).length := by
    rw [size, bytes_append, bytes_cons, List.length_append, List.length_append]
    omega
  have touched : bytes s.block (front ++ q :: back) =
      bytes s.block (front ++ [q]) ++ bytes s.block back := by simp
  refine {
    buf := fun r => mark_buf
    payload := fun r => mark_payload
    unmarked := fun r member => ?_
    handed := ⟨s.next q, ?_, .inr (Int.le_of_lt less)⟩
    begun := ?_
    within := ?_
    covered := ?_
    chain := ?_
    suffix := ⟨front, rfl⟩
    ends := fun _ => ?_
    ready := ?_
    refs := fun b => ?_
    offset := ?_
    inside := ?_
    start := fun none' => absurd none' (List.cons_ne_nil q back)
    whole := iff_of_false (List.cons_ne_nil q back) (by omega)
    remains := ?_
    place := by omega
    totalLen := rfl
    pTail := rfl }
  · have other : r ≠ q := by
      rintro rfl
      exact (List.nodup_append.mp distinct).2.2 r (by simp) r member rfl
    exact congrArg RsBlock.flags (mark_apart other)
  · have last : Segment s.next (some q) [q] (s.next q) := ⟨rfl, rfl⟩
    exact (segment_append.mpr ⟨some q, handed, last⟩).congr fun r _ => mark_next
  · rw [List.dropLast_concat]
    exact begun
  · intro r member
    rcases List.mem_append.mp member with inside | last
    · exact List.mem_append_left _ inside
    · cases List.mem_singleton.mp last
      simp
  · have within : k.toNat ≤ (bytes s.block (front ++ [q])).length := by omega
    rw [touched, List.take_append_of_le_length within]
  · have kept' := segment_append.mpr ⟨middle, kept, behind⟩
    exact kept'.congr fun r _ => mark_next
  · refine kept_ends ends ?_ (fun r other => ?_) mark_flags
    · rw [List.append_assoc, List.nodup_append] at distinct
      exact (List.nodup_cons.mp distinct.2.1.of_append_left).1
    · exact congrArg RsBlock.flags (mark_apart other)
  · rintro r same
    cases same
    exact (congrArg (· &&& (isReady ||| isHead)) mark_flags).trans (mark_ready _)
  · have one : (s.rsBufRefInc (s.block q).buf).refNum b =
        s.refNum b + if (s.block q).buf = b then 1 else 0 := by
      by_cases same : (s.block q).buf = b
      · subst b
        rw [if_pos rfl]
        exact Function.update_self ..
      · rw [if_neg same]
        exact Function.update_of_ne (Ne.symm same) ..
    change (s.rsBufRefInc (s.block q).buf).refNum b + _ = _
    rw [one, bufs_append, bufs_append, List.count_append, List.count_append, bufs_count_cons,
      bufs_count_cons]
    simp only [bufs, List.map_nil, List.count_nil]
    omega
  · change 0 ≤ offset
    omega
  · rintro r same
    cases same
    change offset < ((s.block q).payload.length : Int)
    omega
  · have past : (bytes s.block front).length ≤ k.toNat := by omega
    have rest' : k.toNat - (bytes s.block front).length = offset.toNat := by omega
    rw [bytes_append s.block front, List.drop_append, List.drop_eq_nil_of_le past, rest']
    rfl

end

theorem Taken.outcome (taken : Taken s l middle k s' moved touched left)
    (chain : Segment s.next l.head? l middle) (behind : Segment s.next middle rest none)
    (distinct : (l ++ rest).Nodup) (filled : ∀ p ∈ l, (s.block p).payload ≠ [])
    (ends : Ends (flags s.block l)) : Outcome s l rest k s' moved touched left := by
  cases taken with
  | whole front last parts short reached =>
    have member : last ∈ l := by
      rw [parts]
      exact List.mem_concat_self
    exact outcome_whole parts chain behind distinct (filled last member) short reached
  | between front back last q parts here reached =>
    exact outcome_between parts chain behind distinct filled ends here reached
  | inside front back q offset parts begun less place reached =>
    exact outcome_inside parts chain behind distinct ends begun less place reached

end outcome

end MoonInWater.Session.RecvHub
