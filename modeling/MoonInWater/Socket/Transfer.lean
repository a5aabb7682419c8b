import MoonInWater.Lib.Bytes
import MoonInWater.Socket.Model

/-! _socket_rw: the loop over recv or send, and what a sequence of calls moves. -/
namespace MoonInWater.Socket
open Bytes

def socketError : Int := -1
def socketClosed : Int := -2
def socketNoRes : Int := -3
def socketParaError : Int := -4

/-- What recv or send comes to: the bytes that it moves, none at the end of the stream, or an
error. -/
inductive Io where
  | moved (bytes : List UInt8)
  -- EAGAIN, EWOULDBLOCK
  | again
  -- EINTR
  | interrupted
  | error
deriving DecidableEq

/-- The result of a call, the memory it leaves, and the answers of the kernel to later calls. -/
structure Moved where
  ret : Int
  mem : Memory
  rest : List Io

/-- `already_rw > 0 ? already_rw : ret` -/
def result (already : Nat) (ret : Int) : Int := if 0 < already then already else ret

/-- The loop of _socket_rw. The kernel moves no more than it is asked to, and for send what is in
the buffer. -/
def rwLoop (isRecv : Bool) (buf left already : Nat) (mem : Memory) (ios : List Io) : Option Moved :=
  if left = 0 then some ⟨result already 0, mem, ios⟩
  else
    match ios with
    | [] => none
    | .moved bytes :: rest =>
      if bytes = [] then some ⟨result already socketClosed, mem, rest⟩
      else if left < bytes.length then none
      else if isRecv then
        rwLoop isRecv buf (left - bytes.length) (already + bytes.length)
          (write mem (buf + already) bytes) rest
      else if bytes = read mem (buf + already) bytes.length then
        rwLoop isRecv buf (left - bytes.length) (already + bytes.length) mem rest
      else none
    | .again :: rest => some ⟨result already socketNoRes, mem, rest⟩
    | .interrupted :: rest => rwLoop isRecv buf left already mem rest
    | .error :: rest => some ⟨result already socketError, mem, rest⟩

/-- _socket_rw of a socket that is closed or not. -/
def socketRw (closed isRecv : Bool) (buf : Option Nat) (len : Int) (mem : Memory) (ios : List Io) :
    Option Moved :=
  match buf with
  | none => some ⟨socketParaError, mem, ios⟩
  | some buf =>
    if len ≤ 0 then some ⟨socketParaError, mem, ios⟩
    else if closed then some ⟨socketClosed, mem, ios⟩
    else rwLoop isRecv buf len.toNat 0 mem ios

/-- The bytes that answers of the kernel have moved. -/
def bytesOf : List Io → List UInt8
  | [] => []
  | .moved bytes :: rest => bytes ++ bytesOf rest
  | _ :: rest => bytesOf rest

/-- The result that an answer gives to a call that has moved nothing. -/
def Io.stops : Io → Option Int
  | .moved [] => some socketClosed
  | .moved (_ :: _) => none
  | .again => some socketNoRes
  | .interrupted => none
  | .error => some socketError

theorem bytesOf_append (ios ios' : List Io) :
    bytesOf (ios ++ ios') = bytesOf ios ++ bytesOf ios' := by
  induction ios with
  | nil => rfl
  | cons io ios ih => cases io <;> simp [bytesOf, ih]

/-- What one run of the loop has moved, from the answers that it has used. -/
structure Moves (isRecv : Bool) (buf left already : Nat) (mem : Memory) (out : Moved)
    (used : List Io) : Prop where
  fits : (bytesOf used).length ≤ left
  stored : isRecv = true → out.mem = write mem (buf + already) (bytesOf used)
  sent : isRecv = false →
    out.mem = mem ∧ bytesOf used = read mem (buf + already) (bytesOf used).length
  full : (bytesOf used).length = left → out.ret = result (already + left) 0
  short : (bytesOf used).length < left → ∃ stop code, used.getLast? = some stop ∧
    stop.stops = some code ∧ out.ret = result (already + (bytesOf used).length) code
  earlier : ∀ io ∈ used.dropLast, io.stops = none

namespace Moves
variable {isRecv : Bool} {buf left already : Nat} {mem : Memory} {out : Moved} {used : List Io}

theorem nothing (none_left : left = 0) {ios : List Io} :
    Moves isRecv buf left already mem ⟨result already 0, mem, ios⟩ [] := by
  constructor
  · exact Nat.zero_le left
  · intro _
    rfl
  · intro _
    exact ⟨rfl, rfl⟩
  · intro _
    rw [none_left]
    rfl
  · intro more
    rw [none_left] at more
    exact absurd more (Nat.not_lt_zero _)
  · intro io mem_nil
    cases mem_nil

/-- The answer ends the loop. -/
theorem stopped {io : Io} {code : Int} (some_left : left ≠ 0) (stops : io.stops = some code)
    (empty : bytesOf [io] = []) {ios : List Io} :
    Moves isRecv buf left already mem ⟨result already code, mem, ios⟩ [io] := by
  constructor
  · rw [empty]
    exact Nat.zero_le left
  · intro _
    rw [empty]
    rfl
  · intro _
    rw [empty]
    exact ⟨rfl, rfl⟩
  · intro all
    rw [empty] at all
    exact absurd all.symm some_left
  · intro _
    rw [empty]
    exact ⟨io, code, rfl, stops, rfl⟩
  · intro _ mem_nil
    cases mem_nil

/-- The answer has moved a part, and the loop goes on. -/
theorem goes_on {io : Io} {stored : Memory} (goes : io.stops = none)
    (fits : (bytesOf [io]).length ≤ left)
    (here : isRecv = true → stored = write mem (buf + already) (bytesOf [io]))
    (sent : isRecv = false →
      stored = mem ∧ bytesOf [io] = read mem (buf + already) (bytesOf [io]).length)
    (moves : Moves isRecv buf (left - (bytesOf [io]).length) (already + (bytesOf [io]).length)
      stored out used) : Moves isRecv buf left already mem out (io :: used) := by
  have all : bytesOf (io :: used) = bytesOf [io] ++ bytesOf used := bytesOf_append [io] used
  have size : (bytesOf (io :: used)).length = (bytesOf [io]).length + (bytesOf used).length := by
    rw [all, List.length_append]
  have rest_fits := moves.fits
  constructor
  · omega
  · intro recv
    rw [all, write_append, moves.stored recv, here recv, Nat.add_assoc]
  · intro send
    have now := (sent send).2
    obtain ⟨kept, later⟩ := moves.sent send
    rw [(sent send).1] at kept later
    refine ⟨kept, ?_⟩
    rw [size, read_append, ← now, all, Nat.add_assoc, ← later]
  · intro whole
    rw [moves.full (by omega)]
    congr 1
    omega
  · intro more
    obtain ⟨stop, code, last, stops, ret⟩ := moves.short (by omega)
    refine ⟨stop, code, ?_, stops, ?_⟩
    · rw [List.getLast?_cons, last]
      rfl
    · rw [ret]
      congr 1
      omega
  · intro other among
    cases used with
    | nil => cases among
    | cons next used =>
      rw [List.dropLast_cons_cons] at among
      cases among with
      | head => exact goes
      | tail _ among => exact moves.earlier other among

end Moves

theorem rwLoop_moves {isRecv : Bool} {buf left already : Nat} {mem : Memory} {ios : List Io}
    {out : Moved} (done : rwLoop isRecv buf left already mem ios = some out) :
    ∃ used, ios = used ++ out.rest ∧ Moves isRecv buf left already mem out used := by
  induction ios generalizing left already mem with
  | nil =>
    unfold rwLoop at done
    by_cases none_left : left = 0
    · rw [if_pos none_left] at done
      cases done
      exact ⟨[], rfl, .nothing none_left⟩
    · rw [if_neg none_left] at done
      cases done
  | cons io rest ih =>
    unfold rwLoop at done
    by_cases none_left : left = 0
    · rw [if_pos none_left] at done
      cases done
      exact ⟨[], rfl, .nothing none_left⟩
    · rw [if_neg none_left] at done
      cases io with
      | again =>
        cases done
        exact ⟨[.again], rfl, .stopped none_left rfl rfl⟩
      | error =>
        cases done
        exact ⟨[.error], rfl, .stopped none_left rfl rfl⟩
      | interrupted =>
        obtain ⟨used, same, moves⟩ := ih done
        refine ⟨.interrupted :: used, congrArg (Io.interrupted :: ·) same, ?_⟩
        apply Moves.goes_on rfl (Nat.zero_le left) _ _ moves
        · intro _
          rfl
        · intro _
          exact ⟨rfl, rfl⟩
      | moved bytes =>
        have here : bytesOf [.moved bytes] = bytes := List.append_nil bytes
        simp only at done
        by_cases ended : bytes = []
        · rw [if_pos ended] at done
          cases done
          subst ended
          exact ⟨[.moved []], rfl, .stopped none_left rfl rfl⟩
        · rw [if_neg ended] at done
          have goes : (Io.moved bytes).stops = none := by
            cases bytes with
            | nil => exact absurd rfl ended
            | cons b bytes => rfl
          by_cases above : left < bytes.length
          · rw [if_pos above] at done
            cases done
          · rw [if_neg above] at done
            have fits : (bytesOf [.moved bytes]).length ≤ left := by
              rw [here]
              exact Nat.le_of_not_lt above
            cases isRecv with
            | true =>
              obtain ⟨used, same, moves⟩ := ih done
              refine ⟨.moved bytes :: used, congrArg (Io.moved bytes :: ·) same, ?_⟩
              rw [← here] at moves
              apply Moves.goes_on goes fits _ _ moves
              · intro _
                rw [here]
              · intro send
                cases send
            | false =>
              rw [if_neg Bool.false_ne_true] at done
              by_cases from_buf : bytes = read mem (buf + already) bytes.length
              · rw [if_pos from_buf] at done
                obtain ⟨used, same, moves⟩ := ih done
                refine ⟨.moved bytes :: used, congrArg (Io.moved bytes :: ·) same, ?_⟩
                rw [← here] at moves from_buf
                apply Moves.goes_on goes fits _ _ moves
                · intro recv
                  cases recv
                · intro _
                  exact ⟨rfl, from_buf⟩
              · rw [if_neg from_buf] at done
                cases done

/-- A call, with the memory that its caller hands to it. -/
structure Request where
  buf : Option Nat
  len : Int
  mem : Memory
  closed : Bool

/-- The bytes that a call tells its caller it has moved: the first ones of the buffer. -/
def Request.reported (req : Request) (out : Moved) : List UInt8 :=
  match req.buf with
  | none => []
  | some buf => read out.mem buf out.ret.toNat

/-- Calls one after another, socket_read or socket_write. The caller does with its memory what it
likes between two of them. -/
def transfer (isRecv : Bool) : List Request → List Io → Option (List (Request × Moved) × List Io)
  | [], ios => some ([], ios)
  | req :: reqs, ios => do
    let out ← socketRw req.closed isRecv req.buf req.len req.mem ios
    let (outs, rest) ← transfer isRecv reqs out.rest
    some ((req, out) :: outs, rest)

/-- A call accounts for the answers that it has used. -/
structure Accounts (isRecv : Bool) (req : Request) (out : Moved) (used : List Io) : Prop where
  reported : req.reported out = bytesOf used
  outside : ∀ a, (∀ buf, req.buf = some buf → a < buf ∨ buf + out.ret.toNat ≤ a) →
    out.mem a = req.mem a
  sent : isRecv = false → out.mem = req.mem
  -- a call falls short of its length only when it is refused or when the last answer stops it
  ret : out.ret = req.len ∧ 0 < req.len ∨
    used = [] ∧ out.ret = socketParaError ∧ (req.buf = none ∨ req.len ≤ 0) ∨
    used = [] ∧ out.ret = socketClosed ∧ req.closed = true ∨
    ∃ stop code, used.getLast? = some stop ∧ stop.stops = some code ∧
      out.ret = result (bytesOf used).length code ∧ out.ret < req.len
  earlier : ∀ io ∈ used.dropLast, io.stops = none

theorem Io.stops_neg {io : Io} {code : Int} (stops : io.stops = some code) : code < 0 := by
  cases io with
  | moved bytes =>
    cases bytes with
    | nil =>
      cases stops
      decide
    | cons b bytes => cases stops
  | again =>
    cases stops
    decide
  | interrupted => cases stops
  | error =>
    cases stops
    decide

/-- The count that a result gives. -/
theorem result_toNat {n : Nat} {code : Int} (none_above : code ≤ 0) :
    (result n code).toNat = n := by
  by_cases some_moved : 0 < n
  · rw [result, if_pos some_moved, Int.toNat_natCast]
  · rw [result, if_neg some_moved]
    omega

theorem result_lt {n : Nat} {code len : Int} (negative : code < 0) (positive : 0 < len)
    (less : (n : Int) < len) : result n code < len := by
  by_cases some_moved : 0 < n
  · rwa [result, if_pos some_moved]
  · rw [result, if_neg some_moved]
    omega

namespace Accounts
variable {isRecv : Bool} {req : Request} {ios : List Io} {out : Moved} {used : List Io}

/-- A call that asks the kernel for nothing. -/
theorem refused {code : Int} (negative : code < 0)
    (why : code = socketParaError ∧ (req.buf = none ∨ req.len ≤ 0) ∨
      code = socketClosed ∧ req.closed = true) : Accounts isRecv req ⟨code, req.mem, ios⟩ [] := by
  constructor
  · rw [Request.reported]
    cases req.buf with
    | none => rfl
    | some buf =>
      change read req.mem buf code.toNat = []
      rw [Int.toNat_of_nonpos (Int.le_of_lt negative)]
      rfl
  · intro _ _
    rfl
  · intro _
    rfl
  · rcases why with ⟨same, bad⟩ | ⟨same, closed⟩
    · exact .inr (.inl ⟨rfl, same, bad⟩)
    · exact .inr (.inr (.inl ⟨rfl, same, closed⟩))
  · intro io among
    cases among

theorem of_moves {buf : Nat} (at_buf : req.buf = some buf) (positive : 0 < req.len)
    (moves : Moves isRecv buf req.len.toNat 0 req.mem out used) : Accounts isRecv req out used := by
  have fits := moves.fits
  have count : out.ret.toNat = (bytesOf used).length := by
    rcases Nat.lt_or_eq_of_le fits with less | whole
    · obtain ⟨stop, code, -, stops, ret⟩ := moves.short less
      rw [ret, Nat.zero_add, result_toNat (Int.le_of_lt (Io.stops_neg stops))]
    · rw [moves.full whole, Nat.zero_add, result_toNat (Int.le_refl 0), whole]
  constructor
  · rw [Request.reported, at_buf]
    change read out.mem buf out.ret.toNat = bytesOf used
    rw [count]
    cases isRecv with
    | true =>
      rw [moves.stored rfl]
      exact read_write
    | false =>
      obtain ⟨kept, same⟩ := moves.sent rfl
      rw [kept]
      exact same.symm
  · intro a apart
    have outside := apart buf at_buf
    rw [count] at outside
    cases isRecv with
    | true =>
      rw [moves.stored rfl]
      exact write_apart outside
    | false => rw [(moves.sent rfl).1]
  · intro send
    exact (moves.sent send).1
  · rcases Nat.lt_or_eq_of_le fits with less | whole
    · obtain ⟨stop, code, last, stops, ret⟩ := moves.short less
      rw [Nat.zero_add] at ret
      refine .inr (.inr (.inr ⟨stop, code, last, stops, ret, ?_⟩))
      rw [ret]
      exact result_lt (Io.stops_neg stops) positive (by omega)
    · have ret := moves.full whole
      rw [Nat.zero_add, result, if_pos (by omega)] at ret
      exact .inl ⟨by omega, positive⟩
  · exact moves.earlier

end Accounts

theorem socketRw_accounts {isRecv : Bool} {req : Request} {ios : List Io} {out : Moved}
    (done : socketRw req.closed isRecv req.buf req.len req.mem ios = some out) :
    ∃ used, ios = used ++ out.rest ∧ Accounts isRecv req out used := by
  unfold socketRw at done
  cases at_buf : req.buf with
  | none =>
    rw [at_buf] at done
    cases done
    exact ⟨[], rfl, .refused (by decide) (.inl ⟨rfl, .inl at_buf⟩)⟩
  | some buf =>
    rw [at_buf] at done
    simp only at done
    by_cases no_length : req.len ≤ 0
    · rw [if_pos no_length] at done
      cases done
      exact ⟨[], rfl, .refused (by decide) (.inl ⟨rfl, .inr no_length⟩)⟩
    · rw [if_neg no_length] at done
      by_cases closed : req.closed = true
      · rw [if_pos closed] at done
        cases done
        exact ⟨[], rfl, .refused (by decide) (.inr ⟨rfl, closed⟩)⟩
      · rw [if_neg closed] at done
        obtain ⟨used, same, moves⟩ := rwLoop_moves done
        exact ⟨used, same, .of_moves at_buf (Int.lt_of_not_ge no_length) moves⟩

/-- Over any sequence of calls each call accounts for its own part of what the kernel answers, and
the bytes that the calls report are the bytes that the kernel has moved, each one once and in their
order. -/
theorem transfer_moves_once {isRecv : Bool} {reqs : List Request} {ios rest : List Io}
    {outs : List (Request × Moved)} (run : transfer isRecv reqs ios = some (outs, rest)) :
    outs.map Prod.fst = reqs ∧ ∃ parts, ios = parts.flatten ++ rest ∧
      List.Forall₂ (fun call used => Accounts isRecv call.1 call.2 used) outs parts ∧
      outs.flatMap (fun call => call.1.reported call.2) = bytesOf parts.flatten := by
  induction reqs generalizing ios outs with
  | nil =>
    cases run
    exact ⟨rfl, [], rfl, .nil, rfl⟩
  | cons req reqs ih =>
    rw [transfer, Option.bind_eq_bind, Option.bind_eq_some_iff] at run
    obtain ⟨out, first, run⟩ := run
    rw [Option.bind_eq_bind, Option.bind_eq_some_iff] at run
    obtain ⟨⟨outs', rest'⟩, later, same⟩ := run
    cases same
    obtain ⟨used, here, accounts⟩ := socketRw_accounts first
    obtain ⟨reqs_same, parts, there, each, reported⟩ := ih later
    refine ⟨congrArg (req :: ·) reqs_same, used :: parts, ?_, .cons accounts each, ?_⟩
    · rw [List.flatten_cons, List.append_assoc, ← there]
      exact here
    · rw [List.flatten_cons, bytesOf_append, List.flatMap_cons, reported, accounts.reported]

/-- The second call finds nothing, the third one goes on at the next byte. -/
def threeReads : List Request :=
  [⟨some 0, 4, fun _ => 0, false⟩, ⟨some 8, 4, fun _ => 0, false⟩, ⟨some 2, 2, fun _ => 0, false⟩]

def kernelAnswers : List Io :=
  [.moved [1, 2], .interrupted, .moved [3], .again, .again, .moved [4, 5]]

theorem transfer_threeReads : ∃ outs rest, transfer true threeReads kernelAnswers =
    some (outs, rest) ∧ outs.map (fun call => call.2.ret) = [3, socketNoRes, 2] ∧
    outs.flatMap (fun call => call.1.reported call.2) = [1, 2, 3, 4, 5] := by
  refine ⟨_, _, rfl, rfl, ?_⟩
  obtain ⟨-, parts, answers, -, reported⟩ :=
    transfer_moves_once (rfl : transfer true threeReads kernelAnswers = some (_, []))
  rw [List.append_nil] at answers
  rw [← answers] at reported
  exact reported

end MoonInWater.Socket
