import MoonInWater.Session.RecvHub

/-! The loops of the hub's functions: where a request ends in the chain of a packet, and what is
copied out of the blocks that are handed out. -/
namespace MoonInWater.Session.RecvHub
open Chain Fuel
variable {P B : Type}

section loop
variable [DecidableEq P] [DecidableEq B]

/-- Where a request ends that asks for the bytes of a packet up to position `k`: the state in which
the loop of get_from_head_len leaves the hub, the position that it reaches, the blocks that are
handed out, and those of the packet that the hub keeps. -/
inductive Taken (s : State P B) (l : List P) (after : Option P) (k : Int) :
    State P B → Int → List P → List P → Prop
  | whole {moved : Int} (front : List P) (last : P) (parts : l = front ++ [last])
      (short : (bytes s.block l).length ≤ k) (reached : moved = (bytes s.block l).length) :
      Taken s l after k
        { s.setNext last none with hub := { s.hub with headOffset := 0, pHead := after } }
        moved l []
  | between {moved : Int} (front back : List P) (last q : P)
      (parts : l = front ++ last :: q :: back)
      (here : (bytes s.block (front ++ [last])).length = k) (reached : moved = k) :
      Taken s l after k
        { (s.setNext last none).mark q with
          hub := { s.hub with headOffset := 0, pHead := some q } }
        moved (front ++ [last]) (q :: back)
  | inside {moved : Int} (front back : List P) (q : P) (offset : Int)
      (parts : l = front ++ q :: back)
      (begun : (bytes s.block front).length < k) (less : k < (bytes s.block (front ++ [q])).length)
      (place : offset = k - (bytes s.block front).length) (reached : moved = k) :
      Taken s l after k
        { (s.rsBufRefInc (s.block q).buf).mark q with
          hub := { s.hub with headOffset := offset, pHead := some q } }
        moved (front ++ [q]) (q :: back)

variable {s : State P B} {p q : P} {l : List P} {after : Option P}

/-- A block in front of a packet that is taken. -/
theorem Taken.cons {s' : State P B} {k moved : Int} {touched left : List P}
    (taken : Taken s l after k s' moved touched left) :
    Taken s (p :: l) after (k + (s.block p).len) s' (moved + (s.block p).len) (p :: touched)
      left := by
  cases taken with
  | whole front last parts short reached =>
    refine .whole (p :: front) last (congrArg (p :: ·) parts) ?_ ?_
    · simp only [bytes_cons, List.length_append, RsBlock.len]
      push_cast
      omega
    · simp only [bytes_cons, List.length_append, RsBlock.len]
      push_cast
      omega
  | between front back last q parts here reached =>
    refine .between (p :: front) back last q (congrArg (p :: ·) parts) ?_ (by omega)
    simp only [List.cons_append, bytes_cons, List.length_append, RsBlock.len] at here ⊢
    push_cast
    omega
  | inside front back q offset parts begun less place reached =>
    refine .inside (p :: front) back q offset (congrArg (p :: ·) parts) ?_ ?_ ?_ (by omega)
    · simp only [bytes_cons, List.length_append, RsBlock.len]
      push_cast
      omega
    · simp only [List.cons_append, bytes_cons, List.length_append, RsBlock.len] at less ⊢
      push_cast
      omega
    · simp only [bytes_cons, List.length_append, RsBlock.len]
      push_cast
      omega

-- the equations of a turn, for the lemmas on how it ends
attribute [local simp] headLenLoop

theorem headLenLoop_inside {len offset curLen : Int}
    (live : 0 < s.refNum (s.block p).buf) (within : len < curLen + ((s.block p).len - offset)) :
    Returns (fun fuel => headLenLoop len fuel s p offset curLen)
      ({ (s.rsBufRefInc (s.block p).buf).mark p with
        hub := { s.hub with headOffset := len - curLen + offset, pHead := some p } }, len) := by
  refine .of_add 1 fun fuel => ?_
  rw [headLenLoop]
  simp only [State.read_live live, Option.bind_eq_bind, Option.bind_some, if_pos within]

theorem headLenLoop_tail {len offset curLen : Int} (live : 0 < s.refNum (s.block p).buf)
    (tail : (s.block p).flags &&& isTail ≠ 0)
    (within : ¬ len < curLen + ((s.block p).len - offset)) :
    Returns (fun fuel => headLenLoop len fuel s p offset curLen)
      ({ s.setNext p none with
        hub := { s.hub with headOffset := 0, pHead := (s.block p).next } },
        curLen + ((s.block p).len - offset)) := by
  refine .of_add 1 fun fuel => ?_
  rw [headLenLoop]
  simp only [State.read_live live, Option.bind_eq_bind, Option.bind_some, if_neg within,
    if_pos tail]

theorem headLenLoop_next {len offset curLen : Int} (live : 0 < s.refNum (s.block p).buf)
    (more : (s.block p).flags &&& isTail = 0) (next : (s.block p).next = some q)
    (live' : 0 < s.refNum (s.block q).buf)
    (within : ¬ len < curLen + ((s.block p).len - offset)) (fuel : Nat) :
    headLenLoop len (fuel + 1) s p offset curLen =
      if curLen + ((s.block p).len - offset) = len then
        some ({ (s.setNext p none).mark q with
          hub := { s.hub with headOffset := 0, pHead := some q } },
          curLen + ((s.block p).len - offset))
      else headLenLoop len fuel s q 0 (curLen + ((s.block p).len - offset)) := by
  rw [headLenLoop]
  simp only [State.read_live live, State.read_live live', next, Option.bind_eq_bind,
    Option.bind_some, if_neg within, more, ne_eq, not_true_eq_false, if_false]

/-- A request that ends inside the first block. -/
theorem headLenLoop_here {len offset curLen : Int} (l : List P) (after : Option P)
    (live : 0 < s.refNum (s.block p).buf) (nonneg : 0 ≤ offset) (less : curLen < len)
    (within : len < curLen + ((s.block p).len - offset)) :
    ∃ s' moved touched left,
      Returns (fun fuel => headLenLoop len fuel s p offset curLen) (s', curLen - offset + moved) ∧
      Taken s (p :: l) after (len - curLen + offset) s' moved touched left := by
  have reached : curLen - offset + (len - curLen + offset) = len := by omega
  refine ⟨_, len - curLen + offset, [p], p :: l, ?_,
    .inside [] l p (len - curLen + offset) rfl ?_ ?_ ?_ rfl⟩
  · rw [reached]
    exact headLenLoop_inside live within
  · simp only [bytes_nil, List.length_nil]
    omega
  · simp only [List.nil_append, bytes_cons, bytes_nil, List.append_nil]
    unfold RsBlock.len at within
    omega
  · simp

/-- The loop of get_from_head_len, from a block of a packet on. -/
theorem headLenLoop_spec {len offset curLen : Int}
    (chain : Segment s.next (some p) (p :: l) after)
    (ends : Ends (flags s.block (p :: l)))
    (live : ∀ q ∈ p :: l, 0 < s.refNum (s.block q).buf)
    (nonneg : 0 ≤ offset) (less : curLen < len) :
    ∃ s' moved touched left,
      Returns (fun fuel => headLenLoop len fuel s p offset curLen) (s', curLen - offset + moved) ∧
      Taken s (p :: l) after (len - curLen + offset) s' moved touched left := by
  have here := live p List.mem_cons_self
  induction l generalizing p offset curLen with
  | nil =>
    by_cases within : len < curLen + ((s.block p).len - offset)
    · exact headLenLoop_here [] after here nonneg less within
    · have next : (s.block p).next = after := chain.2
      have moved : curLen - offset + (s.block p).len = curLen + ((s.block p).len - offset) := by
        omega
      refine ⟨_, (s.block p).len, [p], [], ?_, .whole [] p rfl ?_ ?_⟩
      · rw [moved, ← next]
        exact headLenLoop_tail here ends within
      · simp only [bytes_cons, bytes_nil, List.append_nil]
        unfold RsBlock.len at within
        omega
      · simp only [bytes_cons, bytes_nil, List.append_nil]
        rfl
  | cons q l ih =>
    by_cases within : len < curLen + ((s.block p).len - offset)
    · exact headLenLoop_here (q :: l) after here nonneg less within
    · obtain ⟨_, rest⟩ := chain
      obtain ⟨more, ends⟩ := ends
      have next : (s.block p).next = some q := rest.1
      have live' : ∀ r ∈ q :: l, 0 < s.refNum (s.block r).buf :=
        fun r member => live r (List.mem_cons_of_mem p member)
      have turn := headLenLoop_next here more next (live' q List.mem_cons_self) within
      by_cases boundary : curLen + ((s.block p).len - offset) = len
      · have moved : curLen - offset + (s.block p).len = curLen + ((s.block p).len - offset) := by
          omega
        refine ⟨_, (s.block p).len, [p], q :: l, ?_, .between [] l p q rfl ?_ (by omega)⟩
        · rw [moved]
          refine .of_add 1 fun fuel => ?_
          rw [turn fuel, if_pos boundary]
        · simp only [List.nil_append, bytes_cons, bytes_nil, List.append_nil]
          unfold RsBlock.len at boundary
          omega
      · have start : Segment s.next (some q) (q :: l) after := ⟨rfl, rest.2⟩
        have less' : curLen + ((s.block p).len - offset) < len := by omega
        obtain ⟨s', moved, touched, left, run, taken⟩ :=
          ih start ends live' (Int.le_refl 0) less' (live' q List.mem_cons_self)
        have reached : curLen - offset + (moved + (s.block p).len) =
            curLen + ((s.block p).len - offset) - 0 + moved := by omega
        have asked : len - curLen + offset =
            len - (curLen + ((s.block p).len - offset)) + 0 + (s.block p).len := by omega
        refine ⟨s', moved + (s.block p).len, p :: touched, left, ?_, ?_⟩
        · rw [reached]
          exact Returns.succ (fun fuel => (turn fuel).trans (if_neg boundary)) run
        · rw [asked]
          exact taken.cons

end loop

section receive
variable {s : State P B} {p q : P} {l : List P} {after : Option P}

theorem copy_eq {block : RsBlock P B} {offset n : Int} (nonneg : 0 ≤ offset)
    (short : offset ≤ block.len) (more : 0 ≤ n) :
    block.copy offset (min n (block.len - offset)) =
      some ((block.payload.drop offset.toNat).take n.toNat) := by
  unfold RsBlock.len at short ⊢
  rw [RsBlock.copy, if_pos (by omega)]
  congr 1
  rw [List.take_eq_take_iff, List.length_drop]
  omega

/-- The loop of append_to_tail goes to the end of a chain. -/
theorem lastLoop_spec {len : Int} (chain : Segment s.next (some p) (p :: l) none)
    (live : ∀ r ∈ p :: l, 0 < s.refNum (s.block r).buf) :
    Returns (fun fuel => lastLoop s fuel p len)
      ((p :: l).getLast (List.cons_ne_nil p l), len + (bytes s.block (p :: l)).length) := by
  have here := State.read_live (live p List.mem_cons_self)
  induction l generalizing p len with
  | nil =>
    have next : (s.block p).next = none := chain.2
    refine .of_add 1 fun fuel => ?_
    rw [lastLoop]
    simp only [here, Option.bind_eq_bind, Option.bind_some, next, bytes_cons, bytes_nil,
      List.append_nil, List.getLast_singleton]
    rfl
  | cons q l ih =>
    obtain ⟨_, rest⟩ := chain
    have next : (s.block p).next = some q := rest.1
    have live' : ∀ r ∈ q :: l, 0 < s.refNum (s.block r).buf :=
      fun r member => live r (List.mem_cons_of_mem p member)
    have size : len + (bytes s.block (p :: q :: l)).length =
        len + (s.block p).len + (bytes s.block (q :: l)).length := by
      rw [bytes_cons, List.length_append, RsBlock.len]
      omega
    rw [size, List.getLast_cons (List.cons_ne_nil q l)]
    refine Returns.succ (fun fuel => ?_)
      (ih ⟨rfl, rest.2⟩ live' (State.read_live (live' q List.mem_cons_self)))
    rw [lastLoop]
    simp only [here, Option.bind_eq_bind, Option.bind_some, next]

variable [DecidableEq B]

theorem streamRsbufFree_eq (s : State P B) (b : B) : ∃ used, s.streamRsbufFree b =
    { s with refNum := Function.update s.refNum b (s.refNum b - 1), memUsed := used } := by
  unfold State.streamRsbufFree State.rsBufRefDec
  dsimp only
  split <;> split <;> exact ⟨_, rfl⟩

@[simp] theorem streamRsbufFree_block (b : B) : (s.streamRsbufFree b).block = s.block := by
  obtain ⟨used, same⟩ := streamRsbufFree_eq s b
  rw [same]

@[simp] theorem streamRsbufFree_hub (b : B) : (s.streamRsbufFree b).hub = s.hub := by
  obtain ⟨used, same⟩ := streamRsbufFree_eq s b
  rw [same]

@[simp] theorem streamRsbufFree_refNum (b : B) : (s.streamRsbufFree b).refNum =
    Function.update s.refNum b (s.refNum b - 1) := by
  obtain ⟨used, same⟩ := streamRsbufFree_eq s b
  rw [same]

/-- One reference less than there were. -/
theorem streamRsbufFree_count (b c : B) (live : 0 < s.refNum b) :
    (s.streamRsbufFree b).refNum c + (if b = c then 1 else 0) = s.refNum c := by
  rw [streamRsbufFree_refNum]
  by_cases same : b = c
  · subst c
    rw [Function.update_self, if_pos rfl]
    omega
  · rw [Function.update_of_ne (Ne.symm same), if_neg same, Nat.add_zero]

theorem bufs_count_cons (block : P → RsBlock P B) (p : P) (l : List P) (b : B) :
    (bufs block (p :: l)).count b =
      (bufs block l).count b + if (block p).buf = b then 1 else 0 := by
  rw [bufs, List.map_cons, List.count_cons]
  simp only [beq_iff_eq]
  rfl

theorem bufs_refs (counted : ∀ b, (bufs s.block (p :: l)).count b ≤ s.refNum b) :
    0 < s.refNum (s.block p).buf := by
  have least := counted (s.block p).buf
  rw [bufs_count_cons, if_pos rfl] at least
  omega

/-- The inner loop of stream_recv takes what the request asks for out of the blocks that it is
given, and drops a reference for each of them. -/
theorem recvLoop_spec {len offset fetchLen : Int}
    (chain : Segment s.next (some p) (p :: l) after)
    (counted : ∀ b, (bufs s.block (p :: l)).count b ≤ s.refNum b)
    (filled : ∀ q ∈ l, (s.block q).payload ≠ [])
    (nonneg : 0 ≤ offset) (short : offset < (s.block p).len) (less : fetchLen < len)
    (begun : (bytes s.block (p :: l).dropLast).length < len - fetchLen + offset)
    (ends : after = none ∨ len - fetchLen + offset ≤ (bytes s.block (p :: l)).length) :
    ∃ s', Returns (fun fuel => recvLoop len fuel s p offset fetchLen)
        (s', ((bytes s.block (p :: l)).drop offset.toNat).take (len - fetchLen).toNat) ∧
      s'.block = s.block ∧ s'.hub = s.hub ∧
      ∀ b, s'.refNum b + (bufs s.block (p :: l)).count b = s.refNum b := by
  induction l generalizing p offset fetchLen s with
  | nil =>
    have live := bufs_refs counted
    have next : (s.block p).next = after := chain.2
    have copied := copy_eq nonneg (Int.le_of_lt short) (Int.le_of_lt (Int.sub_pos.mpr less))
    refine ⟨s.streamRsbufFree (s.block p).buf, .of_add 1 fun fuel => ?_, by simp, by simp, ?_⟩
    · rw [recvLoop]
      simp only [State.read_live live, copied, next, Option.bind_eq_bind, Option.bind_some,
        bytes_cons, bytes_nil, List.append_nil]
      cases after with
      | none => rfl
      | some q =>
        simp only [reduceCtorEq, false_or, bytes_cons, bytes_nil, List.append_nil] at ends
        unfold RsBlock.len
        dsimp only
        rw [if_neg (by omega)]
    · intro b
      have one := streamRsbufFree_count (s.block p).buf b live
      rw [bufs_count_cons]
      simpa [bufs] using one
  | cons q l ih =>
    have live := bufs_refs counted
    have copied := copy_eq nonneg (Int.le_of_lt short) (Int.le_of_lt (Int.sub_pos.mpr less))
    obtain ⟨_, rest⟩ := chain
    have next : (s.block p).next = some q := rest.1
    have size : (bytes s.block (p :: q :: l)).length =
        (s.block p).payload.length + (bytes s.block (q :: l)).length := by
      rw [bytes_cons, List.length_append]
    have front : (bytes s.block (p :: q :: l).dropLast).length =
        (s.block p).payload.length + (bytes s.block (q :: l).dropLast).length := by
      rw [List.dropLast_cons_cons, bytes_cons, List.length_append]
    have first : (s.block p).len = (s.block p).payload.length := rfl
    have all : fetchLen + ((s.block p).len - offset) < len := by omega
    have tmp : min (len - fetchLen) ((s.block p).len - offset) = (s.block p).len - offset := by
      omega
    have same : (s.streamRsbufFree (s.block p).buf).block = s.block := streamRsbufFree_block _
    have counted' : ∀ b, (bufs (s.streamRsbufFree (s.block p).buf).block (q :: l)).count b ≤
        (s.streamRsbufFree (s.block p).buf).refNum b := by
      intro b
      have one := streamRsbufFree_count (s.block p).buf b live
      have both := counted b
      rw [bufs_count_cons] at both
      rw [same]
      omega
    have chain' : Segment (s.streamRsbufFree (s.block p).buf).next (some q) (q :: l) after := by
      refine Segment.congr ⟨rfl, rest.2⟩ fun r _ => ?_
      rw [State.next, same]
      rfl
    have short' : 0 < (s.block q).len := by
      have some' := List.length_pos_iff.mpr (filled q List.mem_cons_self)
      unfold RsBlock.len
      omega
    obtain ⟨s', run, block, hub, refs⟩ := ih chain' counted'
      (fun r member => by rw [same]; exact filled r (List.mem_cons_of_mem q member))
      (Int.le_refl 0) (by rw [same]; exact short') all (by rw [same]; omega)
      (by rw [same]; exact ends.imp_right fun enough => by omega)
    refine ⟨s', ?_, block.trans same, hub.trans (streamRsbufFree_hub _), ?_⟩
    · have turn : ∀ fuel, recvLoop len (fuel + 1) s p offset fetchLen =
          (recvLoop len fuel (s.streamRsbufFree (s.block p).buf) q 0
            (fetchLen + ((s.block p).len - offset))).map fun out =>
              (out.1, ((s.block p).payload.drop offset.toNat).take (len - fetchLen).toNat ++
                out.2) := by
        intro fuel
        rw [tmp] at copied
        rw [recvLoop]
        simp only [State.read_live live, tmp, copied, next, Option.bind_eq_bind, Option.bind_some,
          if_pos all, Option.map_eq_bind]
        rfl
      have joined : ((bytes s.block (p :: q :: l)).drop offset.toNat).take (len - fetchLen).toNat =
          ((s.block p).payload.drop offset.toNat).take (len - fetchLen).toNat ++
            ((bytes s.block (q :: l)).drop (0 : Int).toNat).take
              (len - (fetchLen + ((s.block p).len - offset))).toNat := by
        have place : offset.toNat ≤ (s.block p).payload.length := by omega
        have left : (len - fetchLen).toNat - ((s.block p).payload.drop offset.toNat).length =
            (len - (fetchLen + ((s.block p).len - offset))).toNat := by
          rw [List.length_drop]
          omega
        rw [bytes_cons, List.drop_append_of_le_length place, List.take_append, left]
        rfl
      rw [joined]
      rw [same] at run
      exact Returns.succ turn (run.map _)
    · intro b
      have one := streamRsbufFree_count (s.block p).buf b live
      have others := refs b
      rw [same] at others
      rw [bufs_count_cons]
      omega

end receive

end MoonInWater.Session.RecvHub
