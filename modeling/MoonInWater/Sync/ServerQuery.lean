import MoonInWater.Sync.ServerUpdate

/-! The answer of the server to a query: server_recv_packet for a MOON_QUERY packet looks the
version of the asker up in a table that is keyed by the md5 of the base of each version. -/
namespace MoonInWater.Sync.ServerQuery
open Threads VersionWindow ServerUpdate

def resetMinLaterVersionNum : Nat := 32

/-- What is sent: the update packet that a version came with, or one that get_update_packet
makes between two versions. -/
inductive Answer (V : Type) where
  | none
  | alreadyNewest
  | packet (v : V)
  | update (base new : V)
deriving DecidableEq

variable {V M : Type} [DecidableEq V] [DecidableEq M]

/-- The section for a query of the version with the given md5. -/
def recvQuery (md5 : M) (e : ShadowEntity V M) : Answer V :=
  if IsEntityClosed e then .none
  else
    match e.curNoticeVersion with
    | none => .none
    | some notice =>
      match lookup e.versionTable md5 with
      | some v =>
        if (e.versions notice).version ≤ (e.versions v).version then .alreadyNewest
        else if (e.versions notice).version < (e.versions v).version + resetMinLaterVersionNum then
          .packet v
        else .update v notice
      | none => .update e.rootVersion notice

omit [DecidableEq V] [DecidableEq M] in
/-- The from_md5 and the to_version in the head of an update that is sent. -/
def Answer.head (e : ShadowEntity V M) : Answer V → Option (M × Nat)
  | .packet v => (e.versions v).packet.map fun head => (head.fromMd5, head.toVersion)
  | .update base new => some ((e.versions base).md5Sum, (e.versions new).version % 2 ^ 32)
  | _ => Option.none

/-- The asker learns that it is the newest only when it is, and otherwise has a base for the
update, itself or the root version, that leads to a newer version. -/
def Answered (e : ShadowEntity V M) (v : V) : Prop :=
  match recvQuery (e.versions v).md5Sum e with
  | .alreadyNewest => ∀ notice ∈ e.curNoticeVersion,
      (e.versions notice).version ≤ (e.versions v).version
  | answer => ∃ head ∈ answer.head e, (head.1 = (e.versions v).md5Sum ∨
      head.1 = (e.versions e.rootVersion).md5Sum) ∧ (e.versions v).version < head.2

/-- The version built on the latest one with the given md5, in a history with the newest first. -/
def successor (e : ShadowEntity V M) (md5 : M) : List V → Option V
  | v :: base :: rest =>
    if (e.versions base).md5Sum = md5 then some v else successor e md5 (base :: rest)
  | _ => none

/-- The asker is no older than the notice, as is the successor of its version; or both are
older, the successor by less than the threshold or with an md5 that the asker has. -/
def Usable (e : ShadowEntity V M) (vs : List V) (v notice : V) : Prop :=
  ¬ IsEntityClosed e ∧ ∃ p ∈ successor e (e.versions v).md5Sum vs,
    ((e.versions notice).version ≤ (e.versions v).version ∧
      (e.versions notice).version ≤ (e.versions p).version) ∨
    ((e.versions v).version < (e.versions notice).version ∧
      (e.versions p).version < (e.versions notice).version ∧
      ((e.versions notice).version < (e.versions p).version + resetMinLaterVersionNum ∨
        (e.versions p).md5Sum = (e.versions v).md5Sum ∨
        (e.versions p).md5Sum = (e.versions e.rootVersion).md5Sum))

instance (e : ShadowEntity V M) (vs : List V) (v notice : V) :
    Decidable (Usable e vs v notice) := by
  unfold Usable
  infer_instance

/-- Each version follows the next one. -/
abbrev Descends (e : ShadowEntity Nat M) (vs : List Nat) : Prop :=
  List.IsChain (fun v base => Follows e v base) vs

section
variable {e e' : ShadowEntity Nat M} {vs : List Nat} {v p : Nat} {md5 : M}

omit [DecidableEq M] in
/-- The newest version has the greatest number. -/
theorem descends_lt (descends : Descends e (p :: vs)) :
    ∀ v ∈ vs, (e.versions v).version < (e.versions p).version := by
  induction vs generalizing p with
  | nil => simp
  | cons b vs ih =>
    obtain ⟨follows, rest⟩ := List.isChain_cons_cons.mp descends
    have next := follows.1
    intro v member
    rcases List.mem_cons.mp member with rfl | older
    · omega
    · have less := ih rest v older
      omega

/-- A version that is not the newest has a successor with a greater number. -/
theorem successor_newer (descends : Descends e vs) (member : v ∈ vs)
    (other : ∃ w ∈ vs, (e.versions v).version < (e.versions w).version) :
    ∃ p, successor e (e.versions v).md5Sum vs = some p ∧
      (e.versions v).version < (e.versions p).version := by
  induction vs with
  | nil => exact absurd member List.not_mem_nil
  | cons w vs ih =>
    have inside : v ∈ vs := by
      rcases List.mem_cons.mp member with rfl | inside
      · obtain ⟨x, here, less⟩ := other
        rcases List.mem_cons.mp here with rfl | older
        · exact absurd less (Nat.lt_irrefl _)
        · exact absurd (descends_lt descends x older) (Nat.lt_asymm less)
      · exact inside
    cases vs with
    | nil => exact absurd inside List.not_mem_nil
    | cons b vs =>
      obtain ⟨_, rest⟩ := List.isChain_cons_cons.mp descends
      by_cases found : (e.versions b).md5Sum = (e.versions v).md5Sum
      · exact ⟨w, by rw [successor, if_pos found], descends_lt descends v inside⟩
      · have older : v ∈ vs := by
          rcases List.mem_cons.mp inside with rfl | older
          · exact absurd rfl found
          · exact older
        obtain ⟨p, built, newer⟩ :=
          ih rest inside ⟨b, List.mem_cons_self, descends_lt rest v older⟩
        exact ⟨p, by rw [successor, if_neg found, built], newer⟩

/-- The packet of a successor is an update from the md5 to its own number. -/
theorem successor_packet (descends : Descends e vs) (found : successor e md5 vs = some p) :
    p ∈ vs ∧ Answer.head e (.packet p) = some (md5, (e.versions p).version) := by
  induction vs with
  | nil => cases found
  | cons w vs ih =>
    cases vs with
    | nil => cases found
    | cons b vs =>
      obtain ⟨follows, rest⟩ := List.isChain_cons_cons.mp descends
      rw [successor] at found
      split at found
      next same =>
        cases found
        obtain ⟨_, _, head, sent, built, numbered⟩ := follows
        refine ⟨List.mem_cons_self, ?_⟩
        rw [Answer.head, Option.mem_def.mp sent, Option.map_some, built, numbered, same]
      · obtain ⟨member, packet⟩ := ih rest found
        exact ⟨List.mem_cons_of_mem _ member, packet⟩

omit [DecidableEq M] in
/-- Only the oldest version may have a number that does not fit into a packet. -/
theorem descends_small (descends : Descends e vs) (member : v ∈ vs)
    (other : ∃ w ∈ vs, (e.versions w).version < (e.versions v).version) :
    (e.versions v).version < 2 ^ 32 := by
  induction vs with
  | nil => exact absurd member List.not_mem_nil
  | cons p vs ih =>
    cases vs with
    | nil =>
      obtain ⟨x, only, less⟩ := other
      rw [List.mem_singleton.mp only, List.mem_singleton.mp member] at less
      exact absurd less (Nat.lt_irrefl _)
    | cons b vs =>
      obtain ⟨follows, rest⟩ := List.isChain_cons_cons.mp descends
      rcases List.mem_cons.mp member with rfl | inside
      · exact follows.2.1
      · obtain ⟨x, here, less⟩ := other
        rcases List.mem_cons.mp here with rfl | older
        · exact absurd (descends_lt descends v inside) (Nat.lt_asymm less)
        · exact ih rest inside ⟨x, older, less⟩

/-- The table gives the successor of each version. -/
structure Kept (e : ShadowEntity Nat M) (vs : List Nat) : Prop where
  descends : Descends e vs
  table : ∀ md5, lookup e.versionTable md5 = successor e md5 vs

/-- A query is answered in a usable way just when its version is. -/
theorem Kept.answered_iff (kept : Kept e vs) {notice : Nat} (member : v ∈ vs)
    (noticed : e.curNoticeVersion = some notice) (inside : notice ∈ vs) :
    Answered e v ↔ Usable e vs v notice := by
  obtain ⟨descends, table⟩ := kept
  by_cases closed : IsEntityClosed e
  · have answer : recvQuery (e.versions v).md5Sum e = .none := if_pos closed
    simp [Answered, answer, Usable, closed, Answer.head]
  have newer : (e.versions v).version < (e.versions notice).version →
      ∃ p, successor e (e.versions v).md5Sum vs = some p ∧
        (e.versions v).version < (e.versions p).version :=
    fun less => successor_newer descends member ⟨notice, inside, less⟩
  cases found : successor e (e.versions v).md5Sum vs with
  | none =>
    have answer : recvQuery (e.versions v).md5Sum e = .update e.rootVersion notice := by
      simp only [recvQuery, if_neg closed, noticed, table, found]
    simp only [Answered, answer, Usable, found]
    constructor
    · rintro ⟨head, same, _, less⟩
      cases same
      have small : (e.versions notice).version % 2 ^ 32 ≤ (e.versions notice).version :=
        Nat.mod_le _ _
      obtain ⟨p, some, _⟩ := newer (Nat.lt_of_lt_of_le less small)
      rw [found] at some
      cases some
    · rintro ⟨_, p, some, _⟩
      cases some
  | some p =>
    obtain ⟨built, packet⟩ := successor_packet descends found
    have above : (e.versions v).version < (e.versions notice).version →
        (e.versions v).version < (e.versions p).version := by
      intro less
      obtain ⟨q, built, greater⟩ := newer less
      cases found.symm.trans built
      exact greater
    have usable : Usable e vs v notice ↔
        ((e.versions notice).version ≤ (e.versions v).version ∧
          (e.versions notice).version ≤ (e.versions p).version) ∨
        ((e.versions v).version < (e.versions notice).version ∧
          (e.versions p).version < (e.versions notice).version ∧
          ((e.versions notice).version < (e.versions p).version + resetMinLaterVersionNum ∨
            (e.versions p).md5Sum = (e.versions v).md5Sum ∨
            (e.versions p).md5Sum = (e.versions e.rootVersion).md5Sum)) := by
      simp [Usable, found, closed]
    rw [usable]
    by_cases newest : (e.versions notice).version ≤ (e.versions p).version
    · have answer : recvQuery (e.versions v).md5Sum e = .alreadyNewest := by
        simp only [recvQuery, if_neg closed, noticed, table, found, if_pos newest]
      have answered : Answered e v ↔ (e.versions notice).version ≤ (e.versions v).version := by
        simp [Answered, answer, noticed]
      rw [answered]
      constructor
      · intro current
        exact .inl ⟨current, newest⟩
      · rintro (⟨current, _⟩ | ⟨_, less, _⟩)
        · exact current
        · exact absurd newest (Nat.not_le_of_lt less)
    have older := Nat.lt_of_not_le newest
    by_cases near : (e.versions notice).version <
        (e.versions p).version + resetMinLaterVersionNum
    · have answer : recvQuery (e.versions v).md5Sum e = .packet p := by
        simp only [recvQuery, if_neg closed, noticed, table, found, if_neg newest, if_pos near]
      have answered : Answered e v ↔ (e.versions v).version < (e.versions p).version := by
        simp [Answered, answer, packet]
      rw [answered]
      constructor
      · intro less
        exact .inr ⟨Nat.lt_trans less older, older, .inl near⟩
      · rintro (⟨_, current⟩ | ⟨less, _⟩)
        · exact absurd current newest
        · exact above less
    · have answer : recvQuery (e.versions v).md5Sum e = .update p notice := by
        simp only [recvQuery, if_neg closed, noticed, table, found, if_neg newest, if_neg near]
      have fits : (e.versions notice).version % 2 ^ 32 = (e.versions notice).version :=
        Nat.mod_eq_of_lt (descends_small descends inside ⟨p, built, older⟩)
      have answered : Answered e v ↔ ((e.versions p).md5Sum = (e.versions v).md5Sum ∨
          (e.versions p).md5Sum = (e.versions e.rootVersion).md5Sum) ∧
          (e.versions v).version < (e.versions notice).version := by
        simp only [Answered, answer, Answer.head, fits]
        simp
      rw [answered]
      constructor
      · rintro ⟨based, less⟩
        exact .inr ⟨less, older, .inr based⟩
      · rintro (⟨_, current⟩ | ⟨less, _, close | based⟩)
        · exact absurd current newest
        · exact absurd close near
        · exact ⟨based, less⟩

theorem successor_congr (same : ∀ x ∈ vs, (e'.versions x).md5Sum = (e.versions x).md5Sum) :
    successor e' md5 vs = successor e md5 vs := by
  induction vs with
  | nil => rfl
  | cons v vs ih =>
    cases vs with
    | nil => rfl
    | cons b vs =>
      rw [successor, successor, same b (by simp)]
      rw [ih fun x member => same x (List.mem_cons_of_mem _ member)]

end

omit [DecidableEq M] in
/-- The pairs of an accepted version and its base make the history one descent. -/
theorem descends_of_bases {e : ShadowEntity Nat M} {root : Nat} {accepted : List (Nat × Nat)}
    (bases : accepted.map Prod.snd =
      (accepted.map Prod.fst ++ [root]).tail.take accepted.length)
    (follows : ∀ a ∈ accepted, Follows e a.1 a.2) :
    Descends e (accepted.map Prod.fst ++ [root]) := by
  induction accepted with
  | nil => exact .singleton root
  | cons a rest ih =>
    have first := follows a List.mem_cons_self
    have whole : (rest.map Prod.fst ++ [root]).length = rest.length + 1 := by simp
    rw [List.map_cons, List.map_cons, List.cons_append, List.tail_cons, List.length_cons] at bases
    rw [List.take_of_length_le (Nat.le_of_eq whole)] at bases
    have tail : rest.map Prod.snd = (rest.map Prod.fst ++ [root]).tail.take rest.length := by
      rw [← bases, List.tail_cons, List.take_of_length_le (by simp)]
    have descends := ih tail fun b member => follows b (List.mem_cons_of_mem _ member)
    rw [List.map_cons, List.cons_append, ← bases] at *
    exact List.isChain_cons_cons.mpr ⟨first, descends⟩

section
variable {root : Nat} {g g' : Shared M} {k : Nat → Nat}

omit [DecidableEq M] in
theorem history_descends (hist : History [root] g k) : Descends g.entity (history [root] g) :=
  descends_of_bases hist.bases hist.follows

theorem Kept.step {pc pc' : UpdatePc M} (kept : Kept g.entity (history [root] g))
    (hist : History [root] g fun v => pc.creates v + k v)
    (outcome : Outcome [root] g g' pc pc' k) : Kept g'.entity (history [root] g') := by
  have same : ∀ x ∈ history [root] g,
      (g'.entity.versions x).md5Sum = (g.entity.versions x).md5Sum :=
    fun x member => (outcome.more.versions x (hist.allocated member)).2.1
  refine ⟨history_descends outcome.hist, fun md5 => ?_⟩
  rcases outcome.accepts with ⟨accepted, table⟩ | ⟨v, _, accepted, table⟩
  · have vs : history [root] g' = history [root] g := by rw [history, accepted]; rfl
    rw [table, vs, successor_congr same]
    exact kept.table md5
  · have vs : history [root] g' = v :: history [root] g := by rw [history, accepted]; rfl
    obtain ⟨rest, split⟩ := List.head?_eq_some_iff.mp hist.head
    have newest := same g.entity.versionHead (List.mem_of_head? hist.head)
    rw [table, vs, split, successor, newest, ← split, successor_congr same, kept.table]

end

/-- The history of every run from the root version alone. -/
theorem run_kept {root : Nat} {c c' : Config (Shared M) (UpdatePc M)} (initial : Initial [root] c)
    (empty : c.shared.entity.versionTable = []) (run : protocol.Reaches c c') :
    Kept c'.shared.entity (history [root] c'.shared) := by
  have both : Invariant [root] c' ∧ Kept c'.shared.entity (history [root] c'.shared) := by
    apply Program.Reaches.invariant _ _ _ run
    · refine ⟨initial.invariant, history_descends initial.invariant.hist, fun md5 => ?_⟩
      have same : history [root] c.shared = [root] := by rw [history, initial.fresh]; rfl
      rw [empty, same]
      rfl
    · rintro u g g' pc ls ⟨inv, kept⟩ started
      refine ⟨start_invariant inv started, ?_⟩
      cases started
      exact kept
    · rintro op g g' pc pc' pre post ⟨inv, kept⟩ acted
      obtain ⟨inv', outcome⟩ := step_invariant inv acted
      have hist := inv.hist
      simp only [total_split] at hist
      exact ⟨inv', kept.step hist outcome⟩
  exact both.2

/-- In every history that the server builds from its root version, and with cur_notice_version at
any place of it. -/
theorem query_answered {root v notice : Nat} {c c' : Config (Shared M) (UpdatePc M)}
    (initial : Initial [root] c) (empty : c.shared.entity.versionTable = [])
    (run : protocol.Reaches c c') (member : v ∈ history [root] c'.shared)
    (noticed : c'.shared.entity.curNoticeVersion = some notice)
    (inside : notice ∈ history [root] c'.shared) :
    Answered c'.shared.entity v ↔ Usable c'.shared.entity (history [root] c'.shared) v notice :=
  (run_kept initial empty run).answered_iff member noticed inside

/-- One client commits `n` versions, of the md5 1 to `n`, before the notice moves to version
`notice`. -/
def commits (n notice : Nat) : List (Unit ⊕ Nat × Op Nat) :=
  .inl () :: .inr (0, .others 0 0 (some notice)) ::
    (List.range n).flatMap fun i => [.inl (), .inr (i + 1, .update ⟨i, i + 1, i, i + 1, 0⟩),
      .inr (i + 1, .createNewVersion none), .inr (i + 1, .add)]

/-- Version 1 of three is sent the update to version 2. -/
theorem query_answered_next : ∃ c, protocol.Reaches rootOnly c ∧ Answered c.shared.entity 1 := by
  have executed : ((protocol.execWhere (fun _ _ => true) (commits 3 3) rootOnly).map fun c =>
      (history [0] c.shared, c.shared.entity.curNoticeVersion,
        decide (Usable c.shared.entity (history [0] c.shared) 1 3))) =
        some ([3, 2, 1, 0], some 3, true) := by with_unfolding_all rfl
  obtain ⟨c, done, same⟩ := Option.map_eq_some_iff.mp executed
  simp only [Prod.mk.injEq, decide_eq_true_eq] at same
  obtain ⟨versions, noticed, usable⟩ := same
  have run := (Program.execWhere_reaches done).reaches
  refine ⟨c, run, (query_answered rootOnly_initial rfl run ?_ noticed ?_).mpr usable⟩
  · rw [versions]
    decide
  · rw [versions]
    decide

/-- The root version, 33 behind, is sent an update from version 1. -/
theorem query_from_successor : ∃ c, protocol.Reaches rootOnly c ∧
    0 ∈ history [0] c.shared ∧ 33 ∈ history [0] c.shared ∧
    c.shared.entity.curNoticeVersion = some 33 ∧ ¬ Answered c.shared.entity 0 := by
  have executed : ((protocol.execWhere (fun _ _ => true) (commits 33 33) rootOnly).map fun c =>
      (decide (0 ∈ history [0] c.shared ∧ 33 ∈ history [0] c.shared),
        c.shared.entity.curNoticeVersion,
        recvQuery (c.shared.entity.versions 0).md5Sum c.shared.entity,
        c.shared.entity.rootVersion, (c.shared.entity.versions 0).md5Sum,
        (c.shared.entity.versions 1).md5Sum)) = some (true, some 33, .update 1 33, 0, 0, 1) := by
    decide +kernel
  obtain ⟨c, done, same⟩ := Option.map_eq_some_iff.mp executed
  simp only [Prod.mk.injEq, decide_eq_true_eq] at same
  obtain ⟨members, noticed, answer, root, first, second⟩ := same
  refine ⟨c, (Program.execWhere_reaches done).reaches, members.1, members.2, noticed, ?_⟩
  rw [first] at answer
  simp [Answered, answer, Answer.head, first, second, root]

end MoonInWater.Sync.ServerQuery
