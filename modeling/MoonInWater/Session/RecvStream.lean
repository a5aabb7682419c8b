import MoonInWater.Lib.Follows
import MoonInWater.Session.RecvOutcome

/-! The hub of received packets as a stream of bytes: what is appended packet by packet is received
in order, in pieces of any length. -/
namespace MoonInWater.Session.RecvHub
open Chain Fuel Machine
variable {P B : Type}

/-- A block that has been filled and is not in a hub yet. -/
structure Piece (P B : Type) where
  addr : P
  buf : B
  flags : BitVec 16
  payload : List UInt8

/-- A packet that is ready. -/
structure Packet (P B : Type) where
  pieces : List (Piece P B)
  distinct : (pieces.map Piece.addr).Nodup
  filled : ∀ x ∈ pieces, x.payload ≠ []
  ready : ∀ x ∈ pieces.head?, x.flags &&& (isReady ||| isHead) = (isHead ||| isReady)
  ends : Ends (pieces.map Piece.flags)

def Packet.bytes (packet : Packet P B) : List UInt8 := packet.pieces.flatMap Piece.payload

/-- What has been appended and delivered so far, and the packets with bytes that are left. -/
structure Stream where
  appended : List UInt8
  delivered : List UInt8
  packets : List (List UInt8)

/-- The bytes that a request delivers: no more than asked for, and none behind the first packet. -/
def Stream.take (n : Nat) (a : Stream) : List UInt8 := (a.packets.headD []).take n

def Stream.append (packet : List UInt8) (a : Stream) : Stream :=
  { a with appended := a.appended ++ packet, packets := a.packets ++ [packet] }

def Stream.recv (n : Nat) (a : Stream) : Stream :=
  { a with
    delivered := a.delivered ++ a.take n
    packets := match a.packets with
      | [] => []
      | packet :: rest => if packet.length ≤ n then rest else packet.drop n :: rest }

inductive Op (P B : Type) where
  | append (packet : Packet P B)
  | recv (stale : Option P) (len fetchLen : Int)

def spec : Op P B → Stream → Stream
  | .append packet, a => a.append packet.bytes
  | .recv _ len fetchLen, a => a.recv (len - fetchLen).toNat

def allowed : Op P B → Stream → State P B → State P B → List UInt8 → Prop
  | .append _, _, _, _, out => out = []
  | .recv _ len fetchLen, a, _, _, out => out = a.take (len - fetchLen).toNat

section model
variable [DecidableEq P] [DecidableEq B]

/-- A packet in its blocks, each with a reference of its buffer. -/
def State.put (s : State P B) : List (Piece P B) → State P B
  | [] => s
  | x :: l =>
    let s := s.put l
    { s with
      block := Function.update s.block x.addr ⟨x.buf, x.payload, x.flags, l.head?.map Piece.addr⟩
      refNum := Function.update s.refNum x.buf (s.refNum x.buf + 1) }

def stepFuel (fuel : Nat) : Op P B → State P B → Option (State P B × List UInt8)
  | .append packet, s => do
    let x ← packet.pieces.head?
    let s ← appendToTail fuel x.addr (s.put packet.pieces)
    some (s, [])
  | .recv stale len fetchLen, s => recvTurn stale len fetchLen fuel s

/-- A call, whose loops end by themselves. -/
noncomputable def step (op : Op P B) (s : State P B) : Option (State P B × List UInt8) :=
  limit fun fuel => stepFuel fuel op s

/-- The blocks of a packet that is appended are none of the hub's, and bytes are received while
the hub holds some. -/
def fresh : Op P B → State P B → Prop
  | .append packet, s => ∀ l, Segment s.next s.hub.pHead l none →
      ∀ x ∈ packet.pieces, x.addr ∉ l
  | .recv _ len fetchLen, s => fetchLen < len ∧ s.hub.pHead ≠ none

/-- An empty hub, beside any other blocks and references. -/
def State.init (block : P → RsBlock P B) (others bufLen : B → Nat) (memUsed : Int) : State P B :=
  ⟨block, others, bufLen, memUsed, ⟨0, none, none, 0⟩⟩

end model

section invariant

/-- The bytes of packets that are left, with `n` of the first one delivered. -/
def contents (block : P → RsBlock P B) (n : Nat) : List (List P) → List (List UInt8)
  | [] => []
  | l :: rest => (bytes block l).drop n :: rest.map (bytes block)

theorem contents_zero (block : P → RsBlock P B) (packets : List (List P)) :
    contents block 0 packets = packets.map (bytes block) := by
  cases packets with
  | nil => rfl
  | cons l rest => rfl

/-- The hub holds the packets of the stream. -/
structure Inv [DecidableEq B] (others : B → Nat) (s : State P B) (a : Stream)
    (packets : List (List P)) : Prop extends HoldsPackets s packets where
  ready : ∀ l ∈ packets, ∀ p ∈ l.head?,
    (s.block p).flags &&& (isReady ||| isHead) = (isHead ||| isReady)
  offset : 0 ≤ s.hub.headOffset
  inside : ∀ p ∈ s.hub.pHead, s.hub.headOffset < (s.block p).len
  start : packets = [] → s.hub.headOffset = 0
  refs : ∀ b, s.refNum b = others b + (bufs s.block packets.flatten).count b
  contents : a.packets = contents s.block s.hub.headOffset.toNat packets
  totalLen : s.hub.totalLen = a.packets.flatten.length
  inOrder : a.delivered ++ a.packets.flatten = a.appended

variable {s s' : State P B} {a : Stream} {packets : List (List P)} {l left : List P}

/-- What the hub keeps of its first packet, in front of the others. -/
def keep (left : List P) (rest : List (List P)) : List (List P) :=
  match left with
  | [] => rest
  | p :: l => (p :: l) :: rest

theorem keep_flatten (left : List P) (rest : List (List P)) :
    (keep left rest).flatten = left ++ rest.flatten := by
  cases left with
  | nil => rfl
  | cons p l => rfl

theorem mem_keep {left r : List P} {rest : List (List P)} (member : r ∈ keep left rest) :
    (r = left ∧ left ≠ []) ∨ r ∈ rest := by
  cases left with
  | nil => exact .inr member
  | cons p l =>
    rcases List.mem_cons.mp member with rfl | inside
    · exact .inl ⟨rfl, List.cons_ne_nil p l⟩
    · exact .inr inside

/-- Nothing is lost or delivered twice. -/
theorem recv_flatten (n : Nat) (a : Stream) :
    a.take n ++ (a.recv n).packets.flatten = a.packets.flatten := by
  unfold Stream.take Stream.recv
  cases a.packets with
  | nil => simp
  | cons packet rest =>
    dsimp only [List.headD_cons]
    split
    next short => rw [List.take_of_length_le short, List.flatten_cons]
    next =>
      rw [List.flatten_cons, ← List.append_assoc, List.take_append_drop, List.flatten_cons]

theorem ready_head {f : BitVec 16} (ready : f &&& (isReady ||| isHead) = (isHead ||| isReady)) :
    f &&& isHead ≠ 0 := by
  intro unset
  have both : f &&& (isReady ||| isHead) &&& isHead = (isHead ||| isReady) &&& isHead := by
    rw [ready]
  have absorbed : (isReady ||| isHead) &&& isHead = isHead := by decide
  rw [BitVec.and_assoc, absorbed, unset] at both
  revert both
  decide

theorem refs_live [DecidableEq B] {others : B → Nat}
    (refs : ∀ b, s.refNum b = others b + (bufs s.block l).count b) :
    ∀ p ∈ l, 0 < s.refNum (s.block p).buf := by
  intro p member
  have counted : 0 < (bufs s.block l).count (s.block p).buf :=
    List.count_pos_iff.mpr (List.mem_map_of_mem member)
  rw [refs]
  omega

end invariant

section steps
variable [DecidableEq P] [DecidableEq B] {s s' s₁ : State P B} {a : Stream} {p q : P}
variable {l touched left : List P} {rest packets : List (List P)} {others : B → Nat}

/-- The hub once get_from_head_len has counted what its loop reached. -/
def State.counted (s : State P B) (curLen : Int) : State P B :=
  { s with hub := { s.hub with
    totalLen := s.hub.totalLen - curLen
    pTail := if s.hub.pHead = none then none else s.hub.pTail } }

theorem getFromHeadLen_spec {n : Int} (inv : Inv others s a ((p :: l) :: rest))
    (stale : Option P) (more : 0 < n) :
    ∃ s₁ moved touched left,
      Returns (fun fuel => getFromHeadLen stale n fuel s)
        (s₁.counted (0 - s.hub.headOffset + moved), some p, s.hub.headOffset) ∧
      Outcome s (p :: l) rest.flatten (n + s.hub.headOffset) s₁ moved touched left := by
  have first : s.hub.pHead = some p := inv.pHead
  have whole := inv.chain
  rw [List.flatten_cons, first] at whole
  obtain ⟨middle, chain, behind⟩ := segment_append.mp whole
  have inside : ∀ q ∈ p :: l, q ∈ ((p :: l) :: rest).flatten := by
    intro q member
    exact List.mem_flatten.mpr ⟨p :: l, List.mem_cons_self, member⟩
  have ends := inv.ends (p :: l) List.mem_cons_self
  have live : ∀ q ∈ p :: l, 0 < s.refNum (s.block q).buf :=
    fun q member => inv.live q (inside q member)
  obtain ⟨s₁, moved, touched, left, run, position⟩ :=
    headLenLoop_spec chain ends live inv.offset more
  refine ⟨s₁, moved, touched, left, ?_, ?_⟩
  · refine run.imp fun fuel result => ?_
    unfold getFromHeadLen
    simp only [first, State.read_live (live p List.mem_cons_self), Option.bind_eq_bind,
      Option.bind_some, if_pos (inv.ready (p :: l) List.mem_cons_self p rfl), result]
    rfl
  · rw [Int.sub_zero] at position
    exact position.outcome chain behind inv.distinct
      (fun q member => inv.filled q (inside q member)) ends

omit [DecidableEq P] in
/-- What get_from_head_len leaves is the stream without the bytes that are delivered, once the
blocks that it hands out are freed. -/
theorem outcome_inv {n : Nat} {moved : Int} (inv : Inv others s a (l :: rest))
    (outcome : Outcome s l rest.flatten (n + s.hub.headOffset) s₁ moved touched left)
    (block : s'.block = s₁.block)
    (hub : s'.hub = (s₁.counted (0 - s.hub.headOffset + moved)).hub)
    (refs : ∀ b, s'.refNum b + (bufs s.block touched).count b = s₁.refNum b) :
    Inv others s' (a.recv n) (keep left rest) := by
  have sameBytes : bytes s'.block = bytes s.block := by
    funext r
    refine List.flatMap_congr fun q _ => ?_
    rw [block]
    exact outcome.payload q
  have sameBufs : bufs s'.block = bufs s.block := by
    funext r
    refine List.map_congr_left fun q _ => ?_
    rw [block]
    exact outcome.buf q
  have sameFlags : ∀ r ∈ rest, ∀ q ∈ r, (s'.block q).flags = (s.block q).flags := by
    intro r member q inside
    rw [block]
    exact outcome.unmarked q (List.mem_flatten.mpr ⟨r, member, inside⟩)
  have next : s'.next = s₁.next := by
    funext q
    rw [State.next, block]
    rfl
  have nonneg := inv.offset
  have within : s.hub.headOffset < (bytes s.block l).length := by
    obtain ⟨p, r, rfl⟩ := (inv.ends l List.mem_cons_self).exists_cons
    have inside : s.hub.headOffset < (s.block p).payload.length := inv.inside p inv.pHead
    rw [bytes_cons, List.length_append]
    omega
  obtain ⟨front, suffix⟩ := outcome.suffix
  have whole : (l :: rest).flatten = front ++ (keep left rest).flatten := by
    rw [List.flatten_cons, keep_flatten, suffix, List.append_assoc]
  have chain : Segment s'.next s'.hub.pHead (keep left rest).flatten none := by
    rw [next, keep_flatten, hub]
    exact outcome.chain
  have kept : ∀ q ∈ (keep left rest).flatten, q ∈ (l :: rest).flatten := by
    intro q member
    rw [whole]
    exact List.mem_append_right _ member
  have filled : ∀ q ∈ (keep left rest).flatten, (s'.block q).payload ≠ [] := by
    intro q member
    rw [block, outcome.payload]
    exact inv.filled q (kept q member)
  have ready : ∀ r ∈ keep left rest, ∀ q ∈ r.head?,
      (s'.block q).flags &&& (isReady ||| isHead) = (isHead ||| isReady) := by
    intro r member q first
    rcases mem_keep member with ⟨rfl, _⟩ | inside
    · rw [block]
      exact outcome.ready q first
    · rw [sameFlags r inside q (List.mem_of_head? first)]
      exact inv.ready r (List.mem_cons_of_mem l inside) q first
  have refs' : ∀ b, s'.refNum b =
      others b + (bufs s'.block (keep left rest).flatten).count b := by
    intro b
    have before := inv.refs b
    have loop := outcome.refs b
    have freed := refs b
    rw [sameBufs, keep_flatten, bufs_append, List.count_append]
    rw [List.flatten_cons, bufs_append, List.count_append] at before
    omega
  exact {
    chain := chain
    distinct := by
      have distinct := inv.distinct
      rw [whole] at distinct
      exact distinct.of_append_right
    pTail := by
      have first := chain.first_eq
      have last := inv.pTail
      rw [hub] at first ⊢
      rw [whole, ← outcome.pTail] at last
      change s₁.hub.pHead = _ at first
      change (if s₁.hub.pHead = none then none else s₁.hub.pTail) = _
      rw [first, last]
      cases (keep left rest).flatten with
      | nil => rfl
      | cons q r => simp [List.getLast?_eq_some_getLast]
    ends := by
      intro r member
      rcases mem_keep member with ⟨rfl, more⟩ | inside
      · rw [block]
        exact outcome.ends more
      · have same : flags s'.block r = flags s.block r :=
          List.map_congr_left fun q there => sameFlags r inside q there
        rw [same]
        exact inv.ends r (List.mem_cons_of_mem l inside)
    heads := fun r member q first => ready_head (ready r member q first)
    filled := filled
    live := refs_live refs'
    ready := ready
    offset := by
      rw [hub]
      exact outcome.offset
    inside := by
      intro q first
      have begins := chain.first_eq.symm.trans first
      have size : (s'.block q).len = (s.block q).len := by
        rw [RsBlock.len, block, outcome.payload]
        rfl
      rw [keep_flatten, Option.or_none] at begins
      rw [hub, size]
      cases left with
      | nil =>
        have some' := List.length_pos_iff.mpr (inv.filled q (kept q (List.mem_of_head? begins)))
        change s₁.hub.headOffset < _
        rw [outcome.start rfl]
        exact Int.natCast_pos.mpr some'
      | cons p back => exact outcome.inside q begins
    start := by
      intro none'
      rw [hub]
      refine outcome.start ?_
      cases left with
      | nil => rfl
      | cons p back => exact absurd none' (List.cons_ne_nil _ _)
    refs := refs'
    contents := by
      have before : a.packets =
          (bytes s.block l).drop s.hub.headOffset.toNat :: rest.map (bytes s.block) := inv.contents
      have size : ((bytes s.block l).drop s.hub.headOffset.toNat).length ≤ n ↔ left = [] := by
        rw [outcome.whole, List.length_drop]
        omega
      have after : (bytes s.block left).drop s₁.hub.headOffset.toNat =
          ((bytes s.block l).drop s.hub.headOffset.toNat).drop n := by
        have place : (n + s.hub.headOffset).toNat = s.hub.headOffset.toNat + n := by omega
        rw [outcome.remains, List.drop_drop, place]
      rw [hub]
      change _ = contents s'.block s₁.hub.headOffset.toNat (keep left rest)
      simp only [Stream.recv, before, size]
      cases left with
      | nil =>
        rw [if_pos rfl, outcome.start rfl]
        change _ = contents s'.block 0 rest
        rw [contents_zero, sameBytes]
      | cons p back =>
        rw [if_neg (List.cons_ne_nil p back), ← after, ← sameBytes]
        rfl
    totalLen := by
      have count := congrArg List.length (recv_flatten n a)
      have delivered : (a.take n).length =
          min n ((bytes s.block l).length - s.hub.headOffset.toNat) := by
        rw [Stream.take, inv.contents, List.length_take]
        exact congrArg (min n) List.length_drop
      have before := inv.totalLen
      have moved' := outcome.place
      rw [hub]
      change s₁.hub.totalLen - (0 - s.hub.headOffset + moved) = _
      rw [outcome.totalLen, before]
      rw [List.length_append] at count
      omega
    inOrder := by
      change a.delivered ++ a.take n ++ (a.recv n).packets.flatten = a.appended
      rw [List.append_assoc, recv_flatten]
      exact inv.inOrder }

/-- One turn of stream_recv delivers what the stream has, and leaves the rest of it. -/
theorem recvTurn_spec {len fetchLen : Int} (inv : Inv others s a packets)
    (holds : s.hub.pHead ≠ none) (less : fetchLen < len) (stale : Option P) :
    ∃ s' packets', Returns (fun fuel => recvTurn stale len fetchLen fuel s)
        (s', a.take (len - fetchLen).toNat) ∧
      Inv others s' (a.recv (len - fetchLen).toNat) packets' := by
  cases packets with
  | nil => exact absurd inv.pHead holds
  | cons l rest =>
    obtain ⟨p, l, rfl⟩ := (inv.ends l List.mem_cons_self).exists_cons
    obtain ⟨s₁, moved, touched, left, call, outcome⟩ :=
      getFromHeadLen_spec inv stale (Int.sub_pos.mpr less)
    have sameBytes : bytes s₁.block = bytes s.block := by
      funext t
      exact List.flatMap_congr fun q _ => outcome.payload q
    have sameBufs : bufs s₁.block = bufs s.block := by
      funext t
      exact List.map_congr_left fun q _ => outcome.buf q
    obtain ⟨after, handed, ending⟩ := outcome.handed
    have nonneg := inv.offset
    have inside := inv.inside p inv.pHead
    cases touched with
    | nil =>
      cases handed
      simp only [List.head?_cons, reduceCtorEq, false_or, bytes_nil, List.length_nil] at ending
      omega
    | cons q touched =>
      cases handed.1
      have counted : ∀ b, (bufs s₁.block (p :: touched)).count b ≤ s₁.refNum b := by
        intro b
        have before := inv.refs b
        have loop := outcome.refs b
        rw [List.flatten_cons, bufs_append, List.count_append] at before
        rw [sameBufs]
        omega
      have short : s.hub.headOffset < (s₁.block p).len := by
        rw [RsBlock.len, outcome.payload]
        exact inside
      have filled : ∀ r ∈ touched, (s₁.block r).payload ≠ [] := by
        intro r member
        rw [outcome.payload]
        refine inv.filled r (List.mem_flatten.mpr ⟨p :: l, List.mem_cons_self, ?_⟩)
        exact outcome.within r (List.mem_cons_of_mem p member)
      have begun := outcome.begun
      rw [← sameBytes] at begun ending
      have chain : Segment (s₁.counted (0 - s.hub.headOffset + moved)).next (some p) (p :: touched)
        after := handed
      obtain ⟨s', run, block, hub, refs⟩ :=
        recvLoop_spec chain counted filled nonneg short less begun ending
      have delivered : ((bytes s₁.block (p :: touched)).drop s.hub.headOffset.toNat).take
          (len - fetchLen).toNat = a.take (len - fetchLen).toNat := by
        have place : s.hub.headOffset.toNat + (len - fetchLen).toNat =
            (len - fetchLen + s.hub.headOffset).toNat := by omega
        rw [Stream.take, inv.contents, sameBytes]
        change _ = ((bytes s.block (p :: l)).drop s.hub.headOffset.toNat).take _
        rw [List.take_drop, List.take_drop, place, outcome.covered]
      refine ⟨s', keep left rest, ?_, ?_⟩
      · refine call.imp₂ run fun fuel here there => ?_
        unfold recvTurn
        simp only [here, Option.bind_eq_bind, Option.bind_some, there]
        exact congrArg (fun out => some (s', out)) delivered
      · have refs' : ∀ b, s'.refNum b + (bufs s.block (p :: touched)).count b = s₁.refNum b := by
          intro b
          rw [← sameBufs]
          exact refs b
        have outcome' : Outcome s (p :: l) rest.flatten ((len - fetchLen).toNat + s.hub.headOffset)
            s₁ moved (p :: touched) left := by
          rw [Int.toNat_of_nonneg (by omega)]
          exact outcome
        exact outcome_inv inv outcome' block hub refs'

end steps

section append
variable [DecidableEq P] [DecidableEq B] {s : State P B} {a : Stream} {p : P}
variable {l : List P} {packets : List (List P)} {others : B → Nat}

def addrs (pieces : List (Piece P B)) : List P := pieces.map Piece.addr

theorem put_apart {pieces : List (Piece P B)} {q : P} (apart : q ∉ addrs pieces) :
    (s.put pieces).block q = s.block q := by
  induction pieces with
  | nil => rfl
  | cons x pieces ih =>
    obtain ⟨other, rest⟩ := not_or.mp (mt List.mem_cons.mpr apart)
    exact (Function.update_of_ne other ..).trans (ih rest)

/-- What the blocks of a packet hold once they are there. -/
theorem put_block {pieces : List (Piece P B)} (distinct : (addrs pieces).Nodup) :
    Segment (s.put pieces).next (addrs pieces).head? (addrs pieces) none ∧
    bufs (s.put pieces).block (addrs pieces) = pieces.map Piece.buf ∧
    (addrs pieces).map (fun p => ((s.put pieces).block p).payload) = pieces.map Piece.payload ∧
    flags (s.put pieces).block (addrs pieces) = pieces.map Piece.flags := by
  induction pieces with
  | nil => exact ⟨rfl, rfl, rfl, rfl⟩
  | cons x pieces ih =>
    obtain ⟨fresh, distinct⟩ := List.nodup_cons.mp distinct
    obtain ⟨chain, buf, payload, mark⟩ := ih distinct
    have here : (s.put (x :: pieces)).block x.addr =
        ⟨x.buf, x.payload, x.flags, (addrs pieces).head?⟩ := by
      rw [addrs, List.head?_map]
      exact Function.update_self ..
    have same : ∀ q ∈ addrs pieces, (s.put (x :: pieces)).block q = (s.put pieces).block q := by
      intro q member
      refine Function.update_of_ne ?_ ..
      rintro rfl
      exact fresh member
    refine ⟨⟨rfl, ?_⟩, ?_, ?_, ?_⟩
    · rw [State.next, here]
      exact chain.congr fun q member => congrArg RsBlock.next (same q member)
    · change ((s.put (x :: pieces)).block x.addr).buf :: bufs _ (addrs pieces) = _
      rw [here, bufs_congr same, buf]
      rfl
    · have others : (addrs pieces).map (fun p => ((s.put (x :: pieces)).block p).payload) =
          pieces.map Piece.payload := by
        rw [← payload]
        exact List.map_congr_left fun p member => congrArg RsBlock.payload (same p member)
      change ((s.put (x :: pieces)).block x.addr).payload :: _ = _
      rw [here]
      exact congrArg (x.payload :: ·) others
    · change ((s.put (x :: pieces)).block x.addr).flags :: flags _ (addrs pieces) = _
      rw [here, flags_congr same, mark]
      rfl

theorem put_refs (pieces : List (Piece P B)) (b : B) :
    (s.put pieces).refNum b = s.refNum b + (pieces.map Piece.buf).count b := by
  induction pieces with
  | nil => rfl
  | cons x pieces ih =>
    rw [List.map_cons, List.count_cons]
    by_cases same : x.buf = b
    · subst b
      rw [if_pos (by simp), ← Nat.add_assoc, ← ih]
      exact Function.update_self ..
    · rw [if_neg (by simpa using same), Nat.add_zero, ← ih]
      exact Function.update_of_ne (Ne.symm same) ..

@[simp] theorem put_hub (pieces : List (Piece P B)) : (s.put pieces).hub = s.hub := by
  induction pieces with
  | nil => rfl
  | cons x pieces ih => exact ih

omit [DecidableEq B] in
/-- append_to_tail hangs a chain behind the hub's, and changes nothing else of its blocks. -/
theorem appendToTail_spec {m : List P} (chain : Segment s.next s.hub.pHead m none)
    (last : s.hub.pTail = m.getLast?) (added : Segment s.next (some p) (p :: l) none)
    (distinct : (m ++ p :: l).Nodup) (live : ∀ q ∈ m ++ p :: l, 0 < s.refNum (s.block q).buf) :
    ∃ s', Returns (fun fuel => appendToTail fuel p s) s' ∧
      (∀ q, (s'.block q).buf = (s.block q).buf ∧ (s'.block q).payload = (s.block q).payload ∧
        (s'.block q).flags = (s.block q).flags) ∧
      s'.refNum = s.refNum ∧ Segment s'.next s'.hub.pHead (m ++ p :: l) none ∧
      s'.hub.pTail = (m ++ p :: l).getLast? ∧
      s'.hub.totalLen = s.hub.totalLen + (bytes s.block (p :: l)).length ∧
      s'.hub.headOffset = s.hub.headOffset ∧ (m ≠ [] → s'.hub.pHead = s.hub.pHead) := by
  have walk : Returns (fun fuel => lastLoop s fuel p 0) _ :=
    lastLoop_spec added fun q member => live q (List.mem_append_right m member)
  rw [Int.zero_add] at walk
  have final : some ((p :: l).getLast (List.cons_ne_nil p l)) = (m ++ p :: l).getLast? := by
    simp [List.getLast?_eq_some_getLast]
  rcases List.eq_nil_or_concat m with rfl | ⟨front, tail, rfl⟩
  · refine ⟨{ s with hub := { s.hub with
      pHead := some p
      pTail := some ((p :: l).getLast (List.cons_ne_nil p l))
      totalLen := s.hub.totalLen + (bytes s.block (p :: l)).length } },
      walk.imp fun fuel here => ?_, fun q => ⟨rfl, rfl, rfl⟩, rfl, added, final, rfl, rfl,
      fun none' => absurd rfl none'⟩
    have empty : s.hub.pTail = none := last
    unfold appendToTail
    simp only [here, Option.bind_eq_bind, Option.bind_some, empty]
  · rw [List.concat_eq_append] at chain distinct live final last ⊢
    have tail' : s.hub.pTail = some tail := by rw [last, List.getLast?_concat]
    have apart : ∀ q ∈ p :: l, q ≠ tail := by
      rintro q member rfl
      exact (List.nodup_append.mp distinct).2.2 q (by simp) q member rfl
    refine ⟨{ s.setNext tail (some p) with hub := { s.hub with
      pTail := some ((p :: l).getLast (List.cons_ne_nil p l))
      totalLen := s.hub.totalLen + (bytes s.block (p :: l)).length } },
      walk.imp fun fuel here => ?_, fun q => ⟨setNext_buf, setNext_payload, setNext_flags⟩, rfl,
      segment_append.mpr ⟨some p, ?_, ?_⟩, final, rfl, rfl, fun _ => rfl⟩
    · unfold appendToTail
      simp only [here, Option.bind_eq_bind, Option.bind_some, tail',
        State.read_live (live tail (by simp))]
    · refine chain.cut distinct.of_append_left (fun q other => ?_) ?_
      · exact congrArg RsBlock.next (setNext_apart other)
      · exact congrArg RsBlock.next setNext_self
    · exact added.congr fun q member => congrArg RsBlock.next (setNext_apart (apart q member))

/-- A packet that is appended stands behind the others of the stream. -/
theorem append_spec {packet : Packet P B} (inv : Inv others s a packets)
    (new : fresh (.append packet) s) :
    ∃ s', Returns (fun fuel => stepFuel fuel (.append packet) s) (s', []) ∧
      Inv others s' (a.append packet.bytes) (packets ++ [addrs packet.pieces]) := by
  obtain ⟨chain, buf, payload, mark⟩ := put_block (s := s) packet.distinct
  have apart : ∀ q ∈ packets.flatten, q ∉ addrs packet.pieces := by
    intro q member there
    obtain ⟨x, piece, rfl⟩ := List.mem_map.mp there
    exact new _ inv.chain x piece member
  have kept : ∀ q ∈ packets.flatten, (s.put packet.pieces).block q = s.block q :=
    fun q member => put_apart (apart q member)
  have distinct : (packets.flatten ++ addrs packet.pieces).Nodup := by
    refine List.nodup_append.mpr ⟨inv.distinct, packet.distinct, ?_⟩
    rintro q member r there rfl
    exact apart q member there
  have refs : ∀ b, (s.put packet.pieces).refNum b = others b +
      (bufs (s.put packet.pieces).block (packets.flatten ++ addrs packet.pieces)).count b := by
    intro b
    rw [put_refs, inv.refs, bufs_append, buf, bufs_congr kept, List.count_append]
    omega
  have before : Segment (s.put packet.pieces).next (s.put packet.pieces).hub.pHead
      packets.flatten none := by
    rw [put_hub]
    exact inv.chain.congr fun q member => congrArg RsBlock.next (kept q member)
  have last : (s.put packet.pieces).hub.pTail = packets.flatten.getLast? := by
    rw [put_hub]
    exact inv.pTail
  obtain ⟨x, rest, pieces⟩ : ∃ x rest, packet.pieces = x :: rest := by
    cases pieces : packet.pieces with
    | nil =>
      have ends := packet.ends
      rw [pieces] at ends
      exact ends.elim
    | cons x rest => exact ⟨x, rest, rfl⟩
  have shape : addrs packet.pieces = x.addr :: addrs rest := by rw [pieces]; rfl
  have live := refs_live refs
  rw [shape] at chain distinct live
  obtain ⟨s', run, same, refNum, chain', last', total, offset, first⟩ :=
    appendToTail_spec before last chain distinct live
  rw [← shape] at chain distinct live chain' last' total
  have sameBytes : bytes s'.block = bytes (s.put packet.pieces).block := by
    funext r
    exact List.flatMap_congr fun q _ => (same q).2.1
  have sameBufs : bufs s'.block = bufs (s.put packet.pieces).block := by
    funext r
    exact List.map_congr_left fun q _ => (same q).1
  have sameFlags : flags s'.block = flags (s.put packet.pieces).block := by
    funext r
    exact List.map_congr_left fun q _ => (same q).2.2
  have whole : (packets ++ [addrs packet.pieces]).flatten =
      packets.flatten ++ addrs packet.pieces := by simp
  have ready : ∀ r ∈ packets ++ [addrs packet.pieces], ∀ q ∈ r.head?,
      (s'.block q).flags &&& (isReady ||| isHead) = (isHead ||| isReady) := by
    intro r member q begins
    rw [(same q).2.2]
    rcases List.mem_append.mp member with old | added
    · rw [kept q (List.mem_flatten.mpr ⟨r, old, List.mem_of_head? begins⟩)]
      exact inv.ready r old q begins
    · rw [List.mem_singleton.mp added, shape] at begins
      cases begins
      rw [pieces] at mark
      have begins : ((s.put (x :: rest)).block x.addr).flags = x.flags := (List.cons.inj mark).1
      rw [pieces, begins]
      exact packet.ready x (by rw [pieces]; rfl)
  have filled : ∀ q ∈ packets.flatten ++ addrs packet.pieces, (s'.block q).payload ≠ [] := by
    intro q member
    rw [(same q).2.1]
    rcases List.mem_append.mp member with old | added
    · rw [kept q old]
      exact inv.filled q old
    · have held := List.mem_map_of_mem (f := fun p => ((s.put packet.pieces).block p).payload) added
      rw [payload] at held
      obtain ⟨y, piece, same⟩ := List.mem_map.mp held
      rw [← same]
      exact packet.filled y piece
  have sameContents : bytes (s.put packet.pieces).block (addrs packet.pieces) = packet.bytes := by
    rw [bytes, List.flatMap_def, payload]
    rfl
  have refs' : ∀ b, s'.refNum b = others b +
      (bufs s'.block (packets ++ [addrs packet.pieces]).flatten).count b := by
    intro b
    rw [refNum, whole, sameBufs]
    exact refs b
  refine ⟨s', ?_, {
    chain := whole ▸ chain'
    distinct := whole ▸ distinct
    pTail := whole ▸ last'
    ends := ?_
    heads := fun r member q first => ready_head (ready r member q first)
    filled := whole ▸ filled
    live := refs_live refs'
    ready := ready
    offset := ?_
    inside := ?_
    start := fun none' => absurd none' (by simp)
    refs := refs'
    contents := ?_
    totalLen := ?_
    inOrder := ?_ }⟩
  · refine run.imp fun fuel here => ?_
    unfold stepFuel
    simp only [pieces, List.head?_cons, Option.bind_eq_bind, Option.bind_some]
    rw [← pieces, here]
    rfl
  · intro r member
    rw [sameFlags]
    rcases List.mem_append.mp member with old | added
    · have kept' : ∀ q ∈ r, (s.put packet.pieces).block q = s.block q :=
        fun q inside => kept q (List.mem_flatten.mpr ⟨r, old, inside⟩)
      rw [flags_congr kept']
      exact inv.ends r old
    · rw [List.mem_singleton.mp added, mark]
      exact packet.ends
  · rw [offset, put_hub]
    exact inv.offset
  · intro q begins
    have head := chain'.first_eq.symm.trans begins
    rw [Option.or_none] at head
    have more := List.length_pos_iff.mpr (filled q (List.mem_of_head? head))
    rw [offset, put_hub]
    cases packets with
    | nil =>
      rw [inv.start rfl]
      exact Int.natCast_pos.mpr more
    | cons l packets =>
      obtain ⟨p, r, rfl⟩ := (inv.ends l List.mem_cons_self).exists_cons
      rw [first (by simp), put_hub] at begins
      have inside := inv.inside q begins
      cases inv.pHead.symm.trans begins
      rw [RsBlock.len, (same q).2.1, kept q (by simp)]
      exact inside
  · change a.packets ++ [packet.bytes] = _
    rw [inv.contents, offset, put_hub]
    cases packets with
    | nil =>
      rw [inv.start rfl, ← sameContents, ← sameBytes]
      rfl
    | cons l packets =>
      have old : ∀ r ∈ l :: packets, bytes (s.put packet.pieces).block r = bytes s.block r := by
        intro r member
        exact bytes_congr fun q inside => kept q (List.mem_flatten.mpr ⟨r, member, inside⟩)
      have others : packets.map (bytes (s.put packet.pieces).block) =
          packets.map (bytes s.block) :=
        List.map_congr_left fun r member => old r (List.mem_cons_of_mem l member)
      simp only [contents, List.cons_append, List.map_append, List.map_cons, List.map_nil, others,
        old l List.mem_cons_self, sameBytes, sameContents]
  · change _ = (((a.packets ++ [packet.bytes]).flatten.length : Nat) : Int)
    rw [total, put_hub, sameContents, inv.totalLen]
    simp
  · change a.delivered ++ (a.packets ++ [packet.bytes]).flatten = a.appended ++ packet.bytes
    rw [← inv.inOrder]
    simp

end append

section run
variable [DecidableEq P] [DecidableEq B] {s : State P B} {a : Stream}
variable {packets : List (List P)} {others : B → Nat}

/-- A call keeps the hub the stream, and delivers what the stream has. -/
theorem step_keeps (op : Op P B) (inv : Inv others s a packets) (new : fresh op s) :
    ∃ s' out, step op s = some (s', out) ∧ allowed op a s s' out ∧
      ∃ packets', Inv others s' (spec op a) packets' := by
  cases op with
  | append packet =>
    obtain ⟨s', run, inv'⟩ := append_spec inv new
    exact ⟨s', [], run.limit_eq, rfl, _, inv'⟩
  | recv stale len fetchLen =>
    obtain ⟨s', packets', run, inv'⟩ := recvTurn_spec inv new.2 new.1 stale
    exact ⟨s', _, run.limit_eq, rfl, packets', inv'⟩

end run

end MoonInWater.Session.RecvHub
