import MoonInWater.Socket.Count

/-! Who has the number of an open descriptor: the socket that will close it, the one call that is
under way with it, or nobody. -/
namespace MoonInWater.Socket
open Jobs Threads Resource
variable {S : Type}

inductive Owner (S : Type) where
  | socket (s : S)
  | call
  | nobody
deriving DecidableEq

/-- A job of _socket_close before it has closed the descriptor of the socket, or of the listen task
before it takes the descriptor of a completed connect over. -/
def Job.hasFdOf (s : S) (job : Job S) : Prop :=
  job = .numDec s ∨ job = .closeFd s ∨ ∃ mask later, job = .event .connectDel s mask later

/-- The socket is made, and its category leads _socket_close to close the descriptor. -/
def SocketPrivate.owns (p : SocketPrivate) : Prop :=
  p.made = true ∧ p.fdCat ≠ .noSocket ∧ p.closes = 0

def Owns (g : SocketPool S) (jobs : Multiset (Job S)) (fd : Nat) : Owner S → Prop
  | .socket s => (g.priv s).socketFd = fd ∧
      ((g.priv s).owns ∨ ∃ job ∈ jobs, job.hasFdOf s)
  | .call => ∃ job ∈ jobs, fd ∈ job.carries
  | .nobody => fd ∈ g.leaked

section
variable [DecidableEq S]
variable {g : SocketPool S} {M : Multiset (Job S)}

theorem hasFdOf_marks (s : S) (job : Job S) :
    job.hasFdOf s ↔ .shut ∈ job.marks s ∨ .del ∈ job.marks s := by
  unfold Job.hasFdOf
  cases job with
  | event pc t mask later =>
    cases pc <;> by_cases same : t = s <;> simp [Job.marks, marksOn, touches, ListenPc.marks, same]
  | batch events | drain dels => simp [Job.marks, touches]
  | numDec t | closeFd t =>
    by_cases same : t = s <;> simp [Job.marks, marksOn, same]
  | _ => simp [Job.marks, marksOn]

theorem Good.holds_iff (good : Good g M) (s : S) (fd : Nat) :
    (view g M s).holds = some fd ↔ Owns g M fd (.socket s) := by
  have jobs : (∃ job ∈ M, job.hasFdOf s) ↔
      0 < (view g M s).shut ∨ 0 < (view g M s).del := by
    have shut : (view g M s).shut = (marksOf M s).count .shut := rfl
    have del : (view g M s).del = (marksOf M s).count .del := rfl
    rw [shut, del, ← exists_mark, ← exists_mark]
    simp only [hasFdOf_marks, and_or_left, exists_or]
  have inv := good.socket s
  have made : 0 < (view g M s).shut ∨ 0 < (view g M s).del → (g.priv s).made = true := by
    obtain ⟨made, users, closes, drops, regs, set_le, set, add_le, add, joined, entered, completed,
      touch, connect, single, del, late⟩ := inv
    rw [view_p] at *
    grind -linarith
  rw [Owns, jobs, View.holds, SocketPrivate.owns, view_p, Option.ite_none_right_eq_some,
    Option.some.injEq]
  tauto

omit [DecidableEq S] in
theorem mem_carried {fd : Nat} : fd ∈ carried g M ↔ Owns g M fd .call ∨ Owns g M fd .nobody := by
  simp [carried, Owns]

/-- Over any run each open descriptor has one owner, and none but one that is open and out of epoll
is ever closed. -/
theorem descriptors_owned {c : Config (SocketPool S) (Call (Entry S) (Job S))}
    (run : pool.Reaches ⟨.initial, []⟩ c) :
    c.shared.misused = 0 ∧ (carried c.shared (left c)).Nodup ∧
      ∀ fd, (c.shared.isOpen fd = true → ∃! owner, Owns c.shared (left c) fd owner) ∧
        (c.shared.isOpen fd = false → ∀ owner, ¬ Owns c.shared (left c) fd owner) := by
  have good := reaches_good run
  have custody := good.custody
  have disjoint : ∀ fd, Owns c.shared (left c) fd .call → ¬ Owns c.shared (left c) fd .nobody := by
    rintro fd ⟨job, member, carries⟩ leaked
    have apart := (Multiset.nodup_add.mp custody.nodup).2.2
    exact Multiset.disjoint_left.mp apart (Multiset.mem_bind.mpr ⟨job, member, carries⟩) leaked
  refine ⟨good.misused, custody.nodup, fun fd => ⟨fun opened => ?_, fun shut owner owns => ?_⟩⟩
  · rcases (custody.hands fd).mp opened with member | ⟨s, held⟩
    · have alone : ∀ s, ¬ Owns c.shared (left c) fd (.socket s) := fun s owns =>
        custody.apart ((good.holds_iff s fd).mpr owns) member
      rcases mem_carried.mp member with call | nobody
      · refine ⟨.call, call, fun owner owns => ?_⟩
        cases owner with
        | socket s => exact absurd owns (alone s)
        | call => rfl
        | nobody => exact absurd owns (disjoint fd call)
      · refine ⟨.nobody, nobody, fun owner owns => ?_⟩
        cases owner with
        | socket s => exact absurd owns (alone s)
        | call => exact absurd nobody (disjoint fd owns)
        | nobody => rfl
    · refine ⟨.socket s, (good.holds_iff s fd).mp held, fun owner owns => ?_⟩
      cases owner with
      | socket t => rw [custody.single ((good.holds_iff t fd).mpr owns) held]
      | call => exact absurd (mem_carried.mpr (.inl owns)) (custody.apart held)
      | nobody => exact absurd (mem_carried.mpr (.inr owns)) (custody.apart held)
  · have hand : fd ∈ carried c.shared (left c) ∨
        ∃ s, (view c.shared (left c) s).holds = some fd := by
      cases owner with
      | socket s => exact .inr ⟨s, (good.holds_iff s fd).mpr owns⟩
      | call => exact .inl (mem_carried.mpr (.inl owns))
      | nobody => exact .inl (mem_carried.mpr (.inr owns))
    rw [← custody.hands, shut] at hand
    contradiction

theorem descriptors_owned_slowConnect :
    ∃ c : Config (SocketPool Nat) (Call (Entry Nat) (Job Nat)), pool.Reaches ⟨.initial, []⟩ c ∧
      c.shared.isOpen 3 = true ∧ ∃! owner, Owns c.shared (left c) 3 owner := by
  obtain ⟨c, run, _, _, opened⟩ := slowConnect_runs
  exact ⟨c, run, opened, ((descriptors_owned run).2.2 3).1 opened⟩

end
end MoonInWater.Socket
