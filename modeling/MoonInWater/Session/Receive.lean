import MoonInWater.Lib.Endian
import MoonInWater.Session.StreamClose
import Mathlib.Data.List.Infix
import Mathlib.Logic.Relation

/-! The loop of session_recv: the frames that it finds in a stream of bytes, however recv cuts
it. -/
namespace MoonInWater.Session.Receive
open Endian StreamClose

abbrev Byte := UInt8

def typeSyn : Nat := 1
def typeSynReply : Nat := 2
def typeData : Nat := 3
def typeWindowUpdate : Nat := 4
def typeRst : Nat := 5
def typePing : Nat := 197

def frameHeadLen : Nat := 8
def frameSynHeadLen : Nat := 12
def frameDropBufferSize : Nat := 1024

/-- be32toh of the word at an index -/
def be32toh (bytes : List Byte) (i : Nat) : Nat :=
  let byte := fun j => (bytes.getD (4 * i + j) 0).toNat
  load32 .big ⟨byte 0, byte 1, byte 2, byte 3⟩

def getTypeOrFlags (num : Nat) : Nat := num / 0x1000000

def getLenOrId (num : Nat) : Nat := num % 0x1000000

def headLen (head : List Byte) : Nat := getLenOrId (be32toh head 0)

def headType (head : List Byte) : Nat := getTypeOrFlags (be32toh head 1)

def headStreamId (head : List Byte) : Nat := getLenOrId (be32toh head 1)

/-- The lock-free reads of a stream. -/
structure StreamS where
  status : Status
  isPushed : Bool
  recvWindowSize : Int

/-- What one call of pre_process_recv_packet finds: the session, and the lengths of the blocks that
alloc_recv_packet, which succeeds, puts in a chain. -/
structure View where
  isServer : Nat
  lastRecvStreamId : Int
  getStreamRef : Nat → Option StreamS
  allocRecvPacket : Nat × List Nat

structure RsBlock where
  len : Nat
  data : List Byte
deriving DecidableEq

/-- What `buf` points to: nothing, headbuf, or behind a block of the chain. -/
inductive Buf where
  | null
  | headbuf
  | block (i : Nat)
deriving DecidableEq

/-- active_packet_s. A chain without blocks is a null `p_block`. -/
structure Aip where
  pStream : Option Nat
  pBlock : List RsBlock
  buf : Buf
  curBufIndex : Nat
  bufLen : Nat
  isDrop : Bool
  headbuf : List Byte
deriving DecidableEq

/-- session_recv_ret_e, without SESSION_RECV_TRY_AGAIN -/
inductive Ret where
  | error
  | drop
  | continue
  | nextPacket
deriving DecidableEq

/-- FRAME_SIZE_MAX, which the sources leave to the build. -/
structure Limits where
  frameSizeMax : Nat

section
variable (limits : Limits) (view : View)

def acceptsSyn (head : List Byte) : Prop :=
  headLen head > frameSynHeadLen ∧ headLen head ≤ limits.frameSizeMax ∧
    headStreamId head % 2 = view.isServer ∧ (headStreamId head : Int) > view.lastRecvStreamId

instance (head : List Byte) : Decidable (acceptsSyn limits view head) :=
  inferInstanceAs (Decidable (_ ∧ _))

def acceptsData (stream : StreamS) (head : List Byte) : Prop :=
  headLen head > frameHeadLen ∧ headLen head ≤ limits.frameSizeMax ∧
    (headLen head : Int) ≤ stream.recvWindowSize + frameHeadLen ∧
    (headType head = typeSynReply ∧ stream.status = .synSend ∧ stream.isPushed = false ∨
      headType head = typeData ∧ (stream.status = .synRecv ∨ stream.status = .synreplyRs))

instance (stream : StreamS) (head : List Byte) : Decidable (acceptsData limits stream head) :=
  inferInstanceAs (Decidable (_ ∧ _))

/-- alloc_recv_packet -/
def allocRecvPacket : List RsBlock :=
  ⟨view.allocRecvPacket.1, []⟩ :: view.allocRecvPacket.2.map (⟨·, []⟩)

/-- The end of both cases of frames with data. -/
def dropRest (len : Nat) (r : Ret × Aip) : Ret × Aip :=
  if r.1 = .continue ∧ len > frameHeadLen then (.drop, { r.2 with bufLen := len - frameHeadLen })
  else r

/-- pre_process_recv_packet, without what it does to other parts of the session: the next call
finds them in its own view. -/
def preProcessRecvPacket (aip : Aip) : Ret × Aip :=
  let head := aip.headbuf
  let streamId := headStreamId head
  if headType head = typeSyn then
    dropRest (headLen head)
      (if acceptsSyn limits view head then
        (.continue, { aip with pBlock := allocRecvPacket view, pStream := none })
      else (.nextPacket, aip))
  else if headType head = typeSynReply ∨ headType head = typeData then
    dropRest (headLen head)
      (match view.getStreamRef streamId with
      | some stream =>
        if acceptsData limits stream head then
          (.continue, { aip with pBlock := allocRecvPacket view, pStream := some streamId })
        else (.nextPacket, aip)
      | none => (.nextPacket, aip))
  else if headType head = typeWindowUpdate ∨ headType head = typeRst ∨
      headType head = typePing then (.nextPacket, aip)
  else (.error, aip)

end

/-- reset_aiop -/
def resetAiop (aip : Aip) : Aip :=
  { aip with
      pBlock := []
      pStream := none
      curBufIndex := 0
      bufLen := 0
      buf := .null
      isDrop := false }

/-- init_aip -/
def initAip (aip : Aip) : Aip :=
  { aip with curBufIndex := 0, buf := .headbuf, bufLen := frameHeadLen }

/-- Bytes put into a buffer from an index on. -/
def write (buf : List Byte) (at' : Nat) (bytes : List Byte) : List Byte :=
  buf.take at' ++ bytes ++ buf.drop (at' + bytes.length)

inductive Event where
  | preProcess (head : List Byte)
  | endProcess (packet : List Byte)
deriving DecidableEq

/-- `rest`: the bytes of the io that recv has not returned yet. The calls of
pre_process_recv_packet and end_process_recv_packet are kept in `log`, those of the former are
counted. -/
structure State where
  aip : Aip
  rest : List Byte
  log : List Event
  calls : Nat
  closed : Bool
deriving DecidableEq

def needRead (aip : Aip) : Nat := aip.bufLen - aip.curBufIndex

/-- The number of bytes that recv is asked for. -/
def asked (aip : Aip) : Nat :=
  if aip.isDrop then min (needRead aip) frameDropBufferSize else needRead aip

/-- recv has returned some bytes; to drop them it was given a buffer of its own. -/
def received (aip : Aip) (bytes : List Byte) : Aip :=
  let aip' := { aip with curBufIndex := aip.curBufIndex + bytes.length }
  if aip.isDrop then aip'
  else match aip.buf with
    | .null => aip'
    | .headbuf => { aip' with headbuf := write aip.headbuf aip.curBufIndex bytes }
    | .block i =>
      { aip' with
          pBlock := aip.pBlock.modify i fun b =>
            { b with data := write b.data aip.curBufIndex bytes } }

/-- What session_recv does with the value of pre_process_recv_packet. -/
def enter (ret : Ret) (aip : Aip) : Aip :=
  match ret with
  | .continue =>
    match aip.pBlock with
    | [] => aip
    | b :: bs =>
      { aip with
          buf := .block 0
          pBlock := { b with data := write b.data 0 aip.headbuf } :: bs
          curBufIndex := frameHeadLen
          bufLen := b.len }
  | .nextPacket => initAip aip
  | .drop => { aip with curBufIndex := 0, isDrop := true }
  | .error => aip

/-- A turn of the loop when no byte is needed. -/
def process (limits : Limits) (views : Nat → View) (s : State) : State :=
  match s.aip.buf with
  | .headbuf =>
    let r := preProcessRecvPacket limits (views s.calls) s.aip
    { s with
        aip := enter r.1 r.2
        log := s.log ++ [.preProcess s.aip.headbuf]
        calls := s.calls + 1
        closed := decide (r.1 = .error) }
  | .block i =>
    match s.aip.pBlock[i + 1]? with
    | some b =>
      { s with aip := { s.aip with buf := .block (i + 1), curBufIndex := 0, bufLen := b.len } }
    | none =>
      { s with
          aip := initAip (resetAiop s.aip)
          log := s.log ++ [.endProcess (s.aip.pBlock.flatMap RsBlock.data)] }
  | .null => { s with aip := initAip s.aip }

/-- A turn: recv returns a number of bytes (none when there are none yet), or none is needed. -/
inductive Action where
  | recv (n : Nat)
  | process

def step (limits : Limits) (views : Nat → View) (a : Action) (s : State) : Option State :=
  if s.closed then none
  else match a with
    | .recv n =>
      if 0 < needRead s.aip ∧ n ≤ asked s.aip ∧ n ≤ s.rest.length then
        some { s with aip := received s.aip (s.rest.take n), rest := s.rest.drop n }
      else none
    | .process => if needRead s.aip = 0 then some (process limits views s) else none

def Reaches (limits : Limits) (views : Nat → View) : State → State → Prop :=
  Relation.ReflTransGen fun s s' => ∃ a, step limits views a s = some s'

def CarriesData (head : List Byte) : Prop :=
  headType head = typeSyn ∨ headType head = typeSynReply ∨ headType head = typeData

instance (head : List Byte) : Decidable (CarriesData head) :=
  inferInstanceAs (Decidable (_ ∨ _))

def IsControl (head : List Byte) : Prop :=
  headType head = typeWindowUpdate ∨ headType head = typeRst ∨ headType head = typePing

/-- A frame as the peer sends it: one with data is as long as its head says, another is a head. -/
structure Frame where
  head : List Byte
  payload : List Byte
  headSize : head.length = frameHeadLen
  size : CarriesData head ∧ headLen head = frameHeadLen + payload.length ∨
    IsControl head ∧ payload = []

def Frame.bytes (f : Frame) : List Byte := f.head ++ f.payload

/-- The session takes the data of a frame. -/
def Accepts (limits : Limits) (view : View) (head : List Byte) : Prop :=
  headType head = typeSyn ∧ acceptsSyn limits view head ∨
    (headType head = typeSynReply ∨ headType head = typeData) ∧
      ∃ stream ∈ view.getStreamRef (headStreamId head), acceptsData limits stream head

instance (limits : Limits) (view : View) (head : List Byte) :
    Decidable (Accepts limits view head) :=
  inferInstanceAs (Decidable (_ ∨ _ ∧ ∃ stream ∈ view.getStreamRef _, _))

/-- The calls for a sequence of frames of which the first meets the call of a given index: one for
each head, and one for the whole of each frame that is accepted. -/
def outcome (limits : Limits) (views : Nat → View) : Nat → List Frame → List Event
  | _, [] => []
  | i, f :: fs =>
    .preProcess f.head ::
      ((if Accepts limits (views i) f.head then [.endProcess f.bytes] else []) ++
        outcome limits views (i + 1) fs)

/-- A new session, all of whose fields are zero, and the frames that its peer sends. -/
def start (frames : List Frame) : State :=
  ⟨⟨none, [], .null, 0, 0, false, List.replicate frameHeadLen 0⟩, frames.flatMap Frame.bytes, [],
    0, false⟩

/-- All bytes were received, and the loop asks for more. -/
def Waits (s : State) : Prop := 0 < needRead s.aip ∧ s.rest = []

/-- The next bytes are those of a head. -/
def AtHead (aip : Aip) : Prop := aip.buf = .headbuf ∧ aip.curBufIndex = 0 ∧ aip.isDrop = false

/-- However the stream is cut, the calls are those that the frames ask for, all of them are made by
the time all bytes are received, and this time comes. -/
structure Synchronised (limits : Limits) (views : Nat → View) (frames : List Frame) : Prop where
  calls : ∀ s, Reaches limits views (start frames) s →
    s.closed = false ∧ s.log <+: outcome limits views 0 frames
  whole : ∀ s, Reaches limits views (start frames) s → Waits s →
    s.log = outcome limits views 0 frames ∧ AtHead s.aip
  ends : ∀ s, Reaches limits views (start frames) s → ∃ t, Reaches limits views s t ∧ Waits t

section write
variable {buf bytes : List Byte} {at' : Nat}

theorem write_length (fits : at' + bytes.length ≤ buf.length) :
    (write buf at' bytes).length = buf.length := by
  simp only [write, List.length_append, List.length_take, List.length_drop]
  omega

theorem write_take (fits : at' + bytes.length ≤ buf.length) :
    (write buf at' bytes).take (at' + bytes.length) = buf.take at' ++ bytes := by
  have size : (buf.take at' ++ bytes).length = at' + bytes.length := by
    simp only [List.length_append, List.length_take]
    omega
  rw [write, ← size]
  exact List.take_left

end write

section calls
variable {limits : Limits} {views : Nat → View} {view : View} {aip : Aip}

/-- A frame that is accepted has data behind its head. -/
theorem Accepts.data {head : List Byte} (accepts : Accepts limits view head) :
    CarriesData head ∧ frameHeadLen < headLen head := by
  rcases accepts with ⟨syn, long, _⟩ | ⟨type, stream, _, long, _⟩
  · exact ⟨.inl syn, Nat.lt_trans (by decide : frameHeadLen < frameSynHeadLen) long⟩
  · exact ⟨.inr type, long⟩

/-- What pre_process_recv_packet returns for a frame that it accepts: the case is left with the
value that was meant for one that it refuses. -/
theorem preProcess_accepts (accepts : Accepts limits view aip.headbuf) :
    ∃ chain pStream, preProcessRecvPacket limits view aip =
      (.drop, { aip with
        pBlock := chain
        pStream := pStream
        bufLen := headLen aip.headbuf - frameHeadLen }) := by
  have long := accepts.data.2
  rcases accepts with ⟨syn, accepts⟩ | ⟨type, stream, found, accepts⟩
  · rw [preProcessRecvPacket, if_pos syn, if_pos accepts, dropRest, if_pos ⟨rfl, long⟩]
    exact ⟨_, _, rfl⟩
  · have other : ¬ headType aip.headbuf = typeSyn := by
      intro syn
      rw [syn] at type
      revert type
      decide
    simp only [preProcessRecvPacket, if_neg other, if_pos type, Option.mem_def.mp found,
      if_pos accepts]
    rw [dropRest, if_pos ⟨rfl, long⟩]
    exact ⟨_, _, rfl⟩

theorem dropRest_next (len : Nat) : dropRest len (.nextPacket, aip) = (.nextPacket, aip) := by
  rw [dropRest, if_neg]
  rintro ⟨other, _⟩
  cases other

/-- A frame that is refused, or of a type that no frame has. -/
theorem preProcess_refuses (refuses : ¬ Accepts limits view aip.headbuf) :
    preProcessRecvPacket limits view aip = (.nextPacket, aip) ∨
      preProcessRecvPacket limits view aip = (.error, aip) ∧ ¬ CarriesData aip.headbuf ∧
        ¬ IsControl aip.headbuf := by
  rw [preProcessRecvPacket]
  split
  next syn =>
    rw [if_neg fun accepts => refuses (.inl ⟨syn, accepts⟩), dropRest_next]
    exact .inl rfl
  next other =>
    split
    next type =>
      split
      next stream found =>
        rw [if_neg fun accepts => refuses (.inr ⟨type, stream, found, accepts⟩), dropRest_next]
        exact .inl rfl
      next =>
        rw [dropRest_next]
        exact .inl rfl
    next noData =>
      split
      next => exact .inl rfl
      next noControl => exact .inr ⟨rfl, fun data => data.elim other noData, noControl⟩

/-- A frame of the peer is refused without an error. -/
theorem preProcess_frame (f : Frame) (refuses : ¬ Accepts limits view f.head)
    (here : aip.headbuf = f.head) :
    preProcessRecvPacket limits view aip = (.nextPacket, aip) := by
  rcases preProcess_refuses (here.symm ▸ refuses) with next | ⟨_, noData, noControl⟩
  · exact next
  · rw [here] at noData noControl
    rcases f.size with ⟨data, _⟩ | ⟨control, _⟩
    · exact absurd data noData
    · exact absurd control noControl

end calls

/-- The loop reads heads, or has not begun. -/
structure Reading (aip : Aip) : Prop where
  keeps : aip.isDrop = false
  bound : aip.curBufIndex ≤ aip.bufLen
  mode : aip.buf = .null ∧ aip.bufLen = 0 ∨ aip.buf = .headbuf ∧ aip.bufLen = frameHeadLen

section reading
variable {limits : Limits} {views : Nat → View} {aip : Aip} {s : State} {n : Nat}

theorem Reading.init (keeps : aip.isDrop = false) : Reading (initAip aip) :=
  ⟨keeps, Nat.zero_le _, .inr ⟨rfl, rfl⟩⟩

theorem Reading.asked (reading : Reading aip) : asked aip = needRead aip := by
  rw [Receive.asked, reading.keeps]
  rfl

/-- Bytes for which the loop has asked go into the head. -/
theorem Reading.received (reading : Reading aip) {bytes : List Byte} (some : 0 < needRead aip) :
    received aip bytes =
      { aip with
          curBufIndex := aip.curBufIndex + bytes.length
          headbuf := write aip.headbuf aip.curBufIndex bytes } := by
  rcases reading.mode with ⟨_, zero⟩ | ⟨headbuf, _⟩
  · rw [needRead, zero] at some
    omega
  · rw [Receive.received, reading.keeps, headbuf]
    rfl

theorem Reading.kept (reading : Reading aip) {bytes : List Byte} (some : 0 < needRead aip)
    (fits : bytes.length ≤ needRead aip) : Reading (Receive.received aip bytes) := by
  rw [reading.received some]
  refine ⟨reading.keeps, ?_, reading.mode⟩
  rw [needRead] at fits some
  dsimp only
  omega

/-- A head is complete when no byte is needed. -/
theorem Reading.full (reading : Reading aip) (none : needRead aip = 0) :
    aip.curBufIndex = aip.bufLen := by
  have bound := reading.bound
  rw [needRead] at none
  omega

theorem process_null (null : s.aip.buf = .null) :
    process limits views s = { s with aip := initAip s.aip } := by
  rw [process, null]

theorem process_head (headbuf : s.aip.buf = .headbuf) :
    process limits views s =
      { s with
          aip := enter (preProcessRecvPacket limits (views s.calls) s.aip).1
            (preProcessRecvPacket limits (views s.calls) s.aip).2
          log := s.log ++ [.preProcess s.aip.headbuf]
          calls := s.calls + 1
          closed := decide ((preProcessRecvPacket limits (views s.calls) s.aip).1 = .error) } := by
  rw [process, headbuf]

/-- The steps of the loop. -/
theorem step_cases {a : Action} {s' : State} (taken : step limits views a s = some s') :
    s.closed = false ∧
      ((∃ n, 0 < needRead s.aip ∧ n ≤ asked s.aip ∧ n ≤ s.rest.length ∧
          s' = { s with aip := received s.aip (s.rest.take n), rest := s.rest.drop n }) ∨
        needRead s.aip = 0 ∧ s' = process limits views s) := by
  unfold step at taken
  split at taken
  next => contradiction
  next opened =>
    refine ⟨Bool.eq_false_iff.mpr opened, ?_⟩
    cases a with
    | recv n =>
      simp only at taken
      split at taken
      next fits =>
        cases taken
        exact .inl ⟨n, fits.1, fits.2.1, fits.2.2, rfl⟩
      next => contradiction
    | process =>
      simp only at taken
      split at taken
      next none =>
        cases taken
        exact .inr ⟨none, rfl⟩
      next => contradiction

end reading

section outcome
variable {limits : Limits} {views : Nat → View}

/-- The calls for the heads of frames that are all refused. -/
def heads (frames : List Frame) : List Event := frames.map fun f => .preProcess f.head

theorem control_noData {head : List Byte} (control : IsControl head) : ¬ CarriesData head := by
  rcases control with type | type | type
  · rw [CarriesData, type]
    decide
  · rw [CarriesData, type]
    decide
  · rw [CarriesData, type]
    decide

/-- Frames without payload are refused. -/
theorem refuses_bare {view : View} {f : Frame} (bare : f.payload = []) :
    ¬ Accepts limits view f.head := by
  intro accepts
  obtain ⟨data, long⟩ := accepts.data
  rcases f.size with ⟨_, size⟩ | ⟨control, _⟩
  · rw [size, bare, List.length_nil] at long
    omega
  · exact control_noData control data

theorem length_bytes (frames : List Frame) :
    (frames.flatMap Frame.bytes).length =
      frameHeadLen * frames.length + (frames.map fun f => f.payload.length).sum := by
  induction frames with
  | nil => rfl
  | cons f fs ih =>
    rw [List.flatMap_cons, List.length_append, ih, Frame.bytes, List.length_append, f.headSize,
      List.map_cons, List.sum_cons, List.length_cons, Nat.mul_succ]
    omega

end outcome

section bare
variable {limits : Limits} {views : Nat → View} {frames : List Frame} {s s' : State}

/-- The bytes that the head has and those to come are the frames whose heads were not processed. -/
structure Aligned (frames : List Frame) (s : State) : Prop where
  opened : s.closed = false
  reading : Reading s.aip
  headbuf : s.aip.headbuf.length = frameHeadLen
  parts : ∃ done todo, frames = done ++ todo ∧ s.log = heads done ∧ s.calls = done.length ∧
    s.aip.headbuf.take s.aip.curBufIndex ++ s.rest = todo.flatMap Frame.bytes

theorem Aligned.keeps_recv (aligned : Aligned frames s) {n : Nat} (some : 0 < needRead s.aip)
    (fits : n ≤ asked s.aip) (there : n ≤ s.rest.length) :
    Aligned frames { s with aip := received s.aip (s.rest.take n), rest := s.rest.drop n } := by
  obtain ⟨opened, reading, headbuf, done, todo, split, log, calls, bytes⟩ := aligned
  rw [reading.asked] at fits
  have size : (s.rest.take n).length = n := by
    rw [List.length_take]
    omega
  have room : s.aip.curBufIndex + (s.rest.take n).length ≤ s.aip.headbuf.length := by
    rcases reading.mode with ⟨_, zero⟩ | ⟨_, len⟩
    · rw [needRead, zero] at some
      omega
    · rw [needRead, len] at fits some
      omega
  have kept := reading.kept some (size.symm ▸ fits)
  refine ⟨opened, kept, ?_, done, todo, split, log, calls, ?_⟩
  · rw [reading.received some]
    exact (write_length room).trans headbuf
  · rw [reading.received some]
    dsimp only
    rw [write_take room, List.append_assoc, List.take_append_drop]
    exact bytes

theorem Aligned.keeps_process (aligned : Aligned frames s) (bare : ∀ f ∈ frames, f.payload = [])
    (none : needRead s.aip = 0) :
    Aligned frames (process limits views s) ∧ 0 < needRead (process limits views s).aip ∧
      (process limits views s).rest = s.rest := by
  obtain ⟨opened, reading, headbuf, done, todo, split, log, calls, bytes⟩ := aligned
  have full := reading.full none
  rcases reading.mode with ⟨null, zero⟩ | ⟨head, len⟩
  · rw [process_null null]
    refine ⟨⟨opened, Reading.init reading.keeps, headbuf, done, todo, split, log, calls, ?_⟩,
      (by decide : 0 < frameHeadLen - 0), rfl⟩
    rw [full, zero, List.take_zero] at bytes
    exact bytes
  · rw [full, len, ← headbuf, List.take_length] at bytes
    cases todo with
    | nil =>
      rw [List.flatMap_nil] at bytes
      rw [(List.append_eq_nil_iff.mp bytes).1] at headbuf
      contradiction
    | cons f fs =>
      have alone := bare f (by rw [split]; simp)
      rw [List.flatMap_cons, Frame.bytes, alone, List.append_nil] at bytes
      obtain ⟨here, behind⟩ := List.append_inj bytes (headbuf.trans f.headSize.symm)
      have next : preProcessRecvPacket limits (views s.calls) s.aip = (.nextPacket, s.aip) :=
        preProcess_frame f (refuses_bare alone) here
      rw [process_head head, next]
      refine ⟨⟨rfl, Reading.init reading.keeps, headbuf, done ++ [f], fs, ?_, ?_, ?_, ?_⟩,
        (by decide : 0 < frameHeadLen - 0), rfl⟩
      · rw [split, List.append_assoc]
        rfl
      · rw [log, here, heads, heads, List.map_append]
        rfl
      · rw [calls, List.length_append]
        rfl
      · exact behind

theorem Aligned.reaches (bare : ∀ f ∈ frames, f.payload = []) (aligned : Aligned frames s)
    (run : Reaches limits views s s') : Aligned frames s' := by
  induction run with
  | refl => exact aligned
  | tail _ last ih =>
    obtain ⟨a, taken⟩ := last
    obtain ⟨_, ⟨n, some, fits, there, rfl⟩ | ⟨none, rfl⟩⟩ := step_cases taken
    · exact ih.keeps_recv some fits there
    · exact (ih.keeps_process bare none).1

/-- By the time all bytes are received all frames were processed. -/
theorem Aligned.whole (aligned : Aligned frames s) (waits : Waits s) :
    s.log = heads frames ∧ AtHead s.aip := by
  obtain ⟨opened, reading, headbuf, done, todo, split, log, calls, bytes⟩ := aligned
  obtain ⟨some, none⟩ := waits
  rcases reading.mode with ⟨_, zero⟩ | ⟨head, len⟩
  · rw [needRead, zero] at some
    omega
  · have size := congrArg List.length bytes
    rw [none, List.append_nil, List.length_take, headbuf, length_bytes] at size
    rw [needRead, len] at some
    cases todo with
    | nil =>
      rw [split, List.append_nil]
      refine ⟨log, head, ?_, reading.keeps⟩
      simp only [List.length_nil, List.map_nil, List.sum_nil] at size
      omega
    | cons f fs =>
      rw [List.length_cons, Nat.mul_succ] at size
      omega

/-- The loop gets to the end of the bytes: it receives one, or takes a head. -/
theorem Aligned.ends (bare : ∀ f ∈ frames, f.payload = []) (aligned : Aligned frames s) :
    ∃ t, Reaches limits views s t ∧ Waits t := by
  induction size : 2 * s.rest.length + (if needRead s.aip = 0 then 1 else 0)
    using Nat.strongRecOn generalizing s with
  | ind size ih =>
    by_cases none : needRead s.aip = 0
    · obtain ⟨after, more, same⟩ : Aligned frames (process limits views s) ∧
          0 < needRead (process limits views s).aip ∧ (process limits views s).rest = s.rest :=
        aligned.keeps_process bare none
      have taken : step limits views .process s = some (process limits views s) := by
        unfold step
        rw [aligned.opened]
        simp only [Bool.false_eq_true, if_false, if_pos none]
      obtain ⟨t, run, waits⟩ := ih _ (by
        rw [if_neg (by omega), same]
        rw [if_pos none] at size
        omega) after rfl
      exact ⟨t, .head ⟨_, taken⟩ run, waits⟩
    · cases empty : s.rest with
      | nil => exact ⟨s, .refl, Nat.pos_of_ne_zero none, empty⟩
      | cons b rest =>
        have positive := Nat.pos_of_ne_zero none
        have fits : 1 ≤ asked s.aip := by
          rw [aligned.reading.asked]
          exact positive
        have there : 1 ≤ s.rest.length := by
          rw [empty, List.length_cons]
          omega
        have after := aligned.keeps_recv positive fits there
        have taken : step limits views (.recv 1) s =
            some { s with aip := received s.aip (s.rest.take 1), rest := s.rest.drop 1 } := by
          unfold step
          rw [aligned.opened]
          simp only [Bool.false_eq_true, if_false, if_pos (⟨positive, fits, there⟩ :
            0 < needRead s.aip ∧ 1 ≤ asked s.aip ∧ 1 ≤ s.rest.length)]
        obtain ⟨t, run, waits⟩ := ih _ (by
          rw [if_neg none] at size
          dsimp only
          rw [List.length_drop]
          split
          · omega
          · omega) after rfl
        exact ⟨t, .head ⟨_, taken⟩ run, waits⟩

end bare

section converse
variable {limits : Limits} {views : Nat → View} {frames : List Frame} {s s' : State}

/-- No data frame is ever stored. -/
structure HeadsOnly (s : State) : Prop where
  buf : s.aip.buf = .null ∨ s.aip.buf = .headbuf
  log : ∀ e ∈ s.log, ∃ head, e = .preProcess head

theorem received_buf (aip : Aip) (bytes : List Byte) : (received aip bytes).buf = aip.buf := by
  rw [received]
  split
  · rfl
  · split
    · rfl
    · rfl
    · rfl

/-- pre_process_recv_packet never lets a frame in. -/
theorem enter_buf {view : View} {aip : Aip} (headbuf : aip.buf = .headbuf) :
    (enter (preProcessRecvPacket limits view aip).1 (preProcessRecvPacket limits view aip).2).buf =
      .headbuf := by
  by_cases accepts : Accepts limits view aip.headbuf
  · obtain ⟨chain, pStream, drop⟩ := preProcess_accepts accepts
    rw [drop]
    exact headbuf
  · rcases preProcess_refuses accepts with next | ⟨error, _⟩
    · rw [next]
      rfl
    · rw [error]
      exact headbuf

theorem HeadsOnly.reaches (only : HeadsOnly s) (run : Reaches limits views s s') :
    HeadsOnly s' := by
  induction run with
  | refl => exact only
  | tail _ last ih =>
    obtain ⟨a, taken⟩ := last
    obtain ⟨_, ⟨n, _, _, _, rfl⟩ | ⟨_, rfl⟩⟩ := step_cases taken
    · refine ⟨?_, ih.log⟩
      rw [received_buf]
      exact ih.buf
    · rcases ih.buf with null | headbuf
      · rw [process_null null]
        exact ⟨.inr rfl, ih.log⟩
      · rw [process_head headbuf]
        refine ⟨.inr (enter_buf headbuf), ?_⟩
        intro e member
        rcases List.mem_append.mp member with old | new
        · exact ih.log e old
        · exact ⟨_, List.mem_singleton.mp new⟩

/-- Each call has used up the bytes of a head and no others. -/
structure Counted (total : Nat) (s : State) : Prop where
  reading : Reading s.aip
  calls : s.calls = s.log.length
  bytes : s.rest.length + frameHeadLen * s.calls + s.aip.curBufIndex = total

/-- The calls are made for the heads of frames, each of which is refused. -/
theorem Counted.reaches (sync : Synchronised limits views frames)
    (same : outcome limits views 0 frames = heads frames)
    (refused : ∀ k f, frames[k]? = some f → ¬ Accepts limits (views k) f.head)
    (run : Reaches limits views (start frames) s) :
    Counted (frames.flatMap Frame.bytes).length s := by
  induction run with
  | refl => exact ⟨⟨rfl, Nat.le_refl 0, .inl ⟨rfl, rfl⟩⟩, rfl, rfl⟩
  | @tail s s' before last ih =>
    obtain ⟨opened, behind⟩ := sync.calls s' (.tail before last)
    obtain ⟨a, taken⟩ := last
    obtain ⟨reading, calls, bytes⟩ := ih
    obtain ⟨_, ⟨n, some, fits, there, rfl⟩ | ⟨none, rfl⟩⟩ := step_cases taken
    · rw [reading.asked] at fits
      have size : (s.rest.take n).length = n := by
        rw [List.length_take]
        omega
      refine ⟨reading.kept some (size.symm ▸ fits), calls, ?_⟩
      rw [reading.received some]
      dsimp only
      rw [size, List.length_drop]
      omega
    · have full := reading.full none
      rcases reading.mode with ⟨null, zero⟩ | ⟨headbuf, len⟩
      · rw [process_null null]
        refine ⟨Reading.init reading.keeps, calls, ?_⟩
        rw [full, zero] at bytes
        exact bytes
      · rw [process_head headbuf] at opened behind ⊢
        -- the head of this call is that of the frame with its index, so it is refused
        have refuses : ¬ Accepts limits (views s.calls) s.aip.headbuf := by
          obtain ⟨later, behind⟩ := behind
          have here : (heads frames)[s.calls]? = some (.preProcess s.aip.headbuf) := by
            rw [← same, ← behind, calls]
            dsimp only
            rw [List.append_assoc, List.getElem?_append_right (Nat.le_refl _), Nat.sub_self]
            rfl
          rw [heads, List.getElem?_map] at here
          obtain ⟨f, found, head⟩ := Option.map_eq_some_iff.mp here
          rw [← Event.preProcess.inj head]
          exact refused s.calls f found
        rcases preProcess_refuses refuses with next | ⟨error, _⟩
        · rw [next]
          refine ⟨Reading.init reading.keeps, ?_, ?_⟩
          · rw [List.length_append, ← calls]
            rfl
          · rw [full, len] at bytes
            dsimp only [enter, initAip]
            rw [Nat.mul_succ]
            omega
        · rw [error] at opened
          cases opened

end converse

section example_stream

/-- Turns of the loop, one after another. -/
def exec (limits : Limits) (views : Nat → View) : List Action → State → Option State
  | [], s => some s
  | a :: rest, s => (step limits views a s).bind (exec limits views rest)

theorem exec_reaches {limits : Limits} {views : Nat → View} {actions : List Action}
    {s s' : State} (done : exec limits views actions s = some s') : Reaches limits views s s' := by
  induction actions generalizing s with
  | nil =>
    cases done
    exact .refl
  | cons a rest ih =>
    obtain ⟨t, taken, done⟩ := Option.bind_eq_some_iff.mp done
    exact .head ⟨a, taken⟩ (ih done)

end example_stream

end MoonInWater.Session.Receive
