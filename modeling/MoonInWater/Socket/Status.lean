import MoonInWater.Common.UseingRef
import MoonInWater.Socket.Model

/-! The status word of a socket: on it the steps of useing_ref_inc, useing_ref_dec and
set_status_closed do what the model does to the users and the mark. -/
namespace MoonInWater.Socket.SocketPrivate
open CInt UseingRef
variable {p : SocketPrivate}

def word (p : SocketPrivate) : Int := 16 * p.users + if p.closed = true then statusClosed else 0

theorem closed_word : Closed p.word ↔ p.closed = true := by
  rw [Closed, nibble, word, statusClosed]
  cases p.closed <;> simp

theorem word_opened (opened : p.closed = false) : p.word = 16 * p.users := by
  simp [word, opened]

theorem inc_closed (closed : p.closed = true) : refStep p.word .inc = (p.word, .ret (-1)) := by
  simp [refStep, closed_word, closed]

theorem inc_word (opened : p.closed = false) (room : p.users + 1 < 2 ^ 27) :
    refStep p.word .inc = (p.word, .goto (.incSwap p.word)) ∧
      refStep p.word (.incSwap p.word) = (p.useingRefInc.word, .ret 0) := by
  have kept : i32 (16 * p.users + 16) = 16 * p.users + 16 := by apply i32_eq <;> omega
  have more : p.useingRefInc.word = 16 * p.users + 16 := by
    have same : p.useingRefInc.closed = false := opened
    rw [word_opened same, useingRefInc]
    push_cast
    omega
  constructor
  · simp [refStep, closed_word, opened]
  · rw [more, refStep, if_pos rfl, word_opened opened, useingRefUnit, kept]

theorem dec_word (held : 0 < p.users) (room : p.users < 2 ^ 27) :
    refStep p.word .dec =
      (p.useingRefDec.word, if p.decCloses = true then .closeFun else .ret 0) := by
  have less : i32 (p.word - useingRefUnit) = p.useingRefDec.word := by
    have closed : p.useingRefDec.closed = p.closed := rfl
    have users : (p.useingRefDec.users : Int) = p.users - 1 := Int.ofNat_sub held
    rw [word, word, closed, users, useingRefUnit, statusClosed, i32_eq]
    all_goals split <;> omega
  have positive : ¬ p.useingRefDec.word < 0 := by
    rw [word, statusClosed]
    split <;> omega
  have last : p.useingRefDec.word = statusClosed ↔ p.decCloses = true := by
    rw [word, useingRefDec, decCloses, statusClosed]
    cases p.closed with
    | true =>
      simp
    | false =>
      simp
      omega
  simp only [refStep, less, if_neg positive, last]

theorem close_closed (closed : p.closed = true) :
    refStep p.word .close = (p.word, .ret 0) ∧ p.setStatusClosed = p := by
  constructor
  · simp [refStep, closed_word, closed]
  · rw [setStatusClosed, ← closed]

theorem close_word (opened : p.closed = false) :
    refStep p.word .close = (p.word, .goto (.closeSwap p.word)) ∧
      refStep p.word (.closeSwap p.word) =
        (p.setStatusClosed.word, if p.markCloses = true then .closeFun else .ret 0) := by
  have marked : p.word - nibble p.word + statusClosed = p.setStatusClosed.word := by
    rw [word_opened opened, word, setStatusClosed, nibble]
    simp
  have last : p.word < useingRefUnit ↔ p.markCloses = true := by
    rw [word_opened opened, markCloses, opened, useingRefUnit]
    simp
  constructor
  · simp [refStep, closed_word, opened]
  · simp only [refStep, if_true, marked, last]

end MoonInWater.Socket.SocketPrivate
