import DistributedLabs.Raft.Calls
import DistributedLabs.Raft.Durability
import DistributedLabs.Raft.Events
import DistributedLabs.Raft.Guards

/-! One vote per term. `votedFor` alone does not record that a server has voted: `leader()` clears it, and
    the vote of the handler is not persisted. Away from these two points it does. -/

namespace DistributedLabs

variable {n : Nat} {C : Type}

/-- The server will not vote again in its term: it holds a vote, or it leads. -/
def Raft.HoldsVote (rf : Raft n C) : Prop := rf.votedFor ≠ -1 ∨ rf.state = .leader

theorem Raft.holdsVote_of_votedFor {rf : Raft n C} {i : Fin n} (h : rf.votedFor = i) : rf.HoldsVote := by
  refine Or.inl fun h1 => ?_
  omega

theorem Raft.catchUp_of_same_term {rf : Raft n C} {term : Nat} (hle : rf.currentTerm ≤ term)
    (h : (rf.catchUp term).currentTerm = rf.currentTerm) : rf.catchUp term = rf := by
  rw [Raft.catchUp_currentTerm hle] at h
  exact Raft.catchUp_of_le (Nat.le_of_eq h)

/-! ### Steps -/

section Step
variable {s : Cluster n C} {a : Action n C} {i : Fin n} {rf : Raft n C}

/-- Within a term no section takes the vote back, and a restart does not if the vote is on disk or the term closed. -/
theorem RfStep.holdsVote (h : RfStep s a i rf) (hdisk : Guard.VoteOnDisk s a)
    (ht : rf.currentTerm = (s.peers i).rf.currentTerm) (hv : (s.peers i).rf.HoldsVote) :
    rf.HoldsVote ∨ s.TermClosed i (s.peers i).rf.currentTerm := by
  cases h.write with
  | stand => exact Or.inl (Raft.holdsVote_of_votedFor rfl)
  | leader => exact Or.inl (Or.inr rfl)
  | catchUp hle =>
    rw [Raft.catchUp_of_same_term hle ht]
    exact Or.inl hv
  | vote => exact Or.inl (Raft.holdsVote_of_votedFor rfl)
  | stepDown hlt => exact absurd ht (Nat.ne_of_gt hlt)
  | accept =>
    unfold Raft.HoldsVote
    rw [Raft.accept_votedFor, Raft.accept_state]
    exact Or.inl hv
  | crash hmake ha =>
    subst ha
    by_cases h1 : rf.votedFor = -1
    · rcases hdisk i rfl rf hmake h1 with ⟨h2, h3⟩ | hclosed
      · exact absurd hv (not_or.mpr ⟨not_not.mpr h2, h3⟩)
      · exact Or.inr hclosed
    · exact Or.inl (Or.inl h1)
  | _ => exact Or.inl hv

/-- A closed term stays closed: who stands now stands for a later one. -/
theorem Cluster.TermClosed.step {s' : Cluster n C} {es : List (Event n C)} {term : Nat} (h : s.TermClosed i term)
    (hd : s.Durable) (hs : DistributedLabs.step s a = some (s', es)) : s'.TermClosed i term := by
  refine ⟨fun j => Nat.le_trans (h.1 j) (step_term_le hd hs j), fun c hc hi hterm hst => ?_⟩
  cases step_voteCalls hs hc with
  | old hold => exact h.2 c hold hi hterm hst
  | asked _ _ hcand =>
    obtain ⟨_, -, -, hargs⟩ := Raft.candidate_inv hcand
    have hle := h.1 c.caller
    rw [hargs] at hterm
    dsimp only at hterm
    omega
  | died => cases hst
  | answered => cases hst
  | returned => cases hst

/-- The vote that an event of the step reports is given in the term the server is in afterwards, and by a
    server that held none in that term and could be asked for it. -/
theorem EventStep.voted {s' : Cluster n C} {es : List (Event n C)} {term : Nat} {candidate : Fin n}
    {log : List (Log C)} (h : EventStep s a s' (.voted i term candidate log)) (hask : Guard.LeaderNotAsked s a)
    (hs : step s a = some (s', es)) :
    (s'.peers i).rf.currentTerm = term ∧ (s'.peers i).rf.HoldsVote ∧
      (term = (s.peers i).rf.currentTerm → ¬ ((s.peers i).rf.HoldsVote ∨ s.TermClosed i term)) := by
  rcases h.voted_inv with ⟨rf, args, -, hc, hrf, rfl, -, -⟩ | ⟨k, c, rf, rfl, hc, rfl, hv, hrf, -, -⟩
  · obtain ⟨_, -, rfl, rfl⟩ := Raft.candidate_inv hc
    rw [hrf]
    exact ⟨rfl, Raft.holdsVote_of_votedFor rfl, fun h => absurd h (Nat.succ_ne_self _)⟩
  · rw [hrf]
    rcases Raft.requestVote_inv hv with ⟨-, -, hr⟩ | ⟨-, -, hr⟩ | ⟨hle, hfree, hup, rfl, hr⟩
    · cases hr
    · cases hr
    · cases hr
      refine ⟨?_, Raft.holdsVote_of_votedFor rfl, fun hterm hold => ?_⟩
      · rw [Raft.vote_currentTerm, Raft.catchUp_currentTerm hle]
      · rw [Raft.catchUp_of_le (Nat.le_of_eq hterm)] at hfree
        rcases hold with (hold | hlead) | hclosed
        · exact hold hfree
        · exact hask c hc hlead hterm hup
        · obtain ⟨c', hc', -, hst, -⟩ := Step.requestVote_inv hs
          rw [hc] at hc'
          cases hc'
          exact hclosed.2 c (List.mem_of_getElem? hc) rfl rfl hst

theorem EventStep.voted_unique {s' : Cluster n C} {term₁ term₂ : Nat} {c₁ c₂ : Fin n} {log₁ log₂ : List (Log C)}
    (h₁ : EventStep s a s' (.voted i term₁ c₁ log₁)) (h₂ : EventStep s a s' (.voted i term₂ c₂ log₂)) : c₁ = c₂ := by
  rcases h₁.voted_inv with ⟨_, _, rfl, -, -, -, rfl, -⟩ | ⟨k, d, _, rfl, hd, -, -, -, rfl, -⟩ <;>
    rcases h₂.voted_inv with ⟨_, _, ha, -, -, -, rfl, -⟩ | ⟨k', d', _, ha, hd', -, -, -, rfl, -⟩ <;> cases ha
  · rfl
  · rw [hd] at hd'
    cases hd'
    rfl

end Step

/-! ### Runs -/

/-- Votes are for terms up to the current one; a server that voted in its current term will not vote again
    there, or cannot be asked to; and no two votes of one server in one term name different candidates. -/
structure World.VotesOnce (w : World n C) : Prop where
  seen : ∀ {i term c log}, .voted i term c log ∈ w.events → term ≤ (w.rf i).currentTerm ∧
    (term = (w.rf i).currentTerm → (w.rf i).HoldsVote ∨ w.cluster.TermClosed i term)
  once : ∀ {i term c₁ c₂ log₁ log₂}, .voted i term c₁ log₁ ∈ w.events → .voted i term c₂ log₂ ∈ w.events → c₁ = c₂

namespace World

theorem votesOnce_init : (init n C).VotesOnce where
  seen h := by cases h
  once h := by cases h

theorem VotesOnce.step {w w' : World n C} {a : Action n C} (h : w.VotesOnce) (hd : w.cluster.Durable)
    (hask : Guard.LeaderNotAsked w.cluster a) (hdisk : Guard.VoteOnDisk w.cluster a) (hs : w.step a = some w') :
    w'.VotesOnce := by
  obtain ⟨es, hstep, -⟩ := step_inv hs
  -- A vote after the step is an old one or one that the step made.
  have origin : ∀ {i term c log}, .voted i term c log ∈ w'.events →
      .voted i term c log ∈ w.events ∨ EventStep w.cluster a w'.cluster (.voted i term c log) := by
    intro i term c log he
    rcases step_event hs he with he | ⟨j, hj⟩ | he
    · exact Or.inl he
    · cases hj
    · exact Or.inr he
  -- An old vote and a new one of the same server are of different terms.
  have apart : ∀ {i term c₁ c₂ log₁ log₂}, .voted i term c₁ log₁ ∈ w.events →
      EventStep w.cluster a w'.cluster (.voted i term c₂ log₂) → False := by
    intro i term c₁ c₂ log₁ log₂ hold hnew
    obtain ⟨hle, hholds⟩ := h.seen hold
    obtain ⟨hterm, -, hfree⟩ := hnew.voted hask hstep
    have hup := step_term_le hd hstep i
    rw [hterm] at hup
    have heq : term = (w.rf i).currentTerm := Nat.le_antisymm hle hup
    exact hfree heq (hholds heq)
  constructor
  · intro i term c log he
    rcases origin he with he | he
    · obtain ⟨hle, hholds⟩ := h.seen he
      have hup := step_term_le hd hstep i
      refine ⟨Nat.le_trans hle hup, fun heq => ?_⟩
      have hsame : (w'.rf i).currentTerm = (w.rf i).currentTerm := Nat.le_antisymm (heq ▸ hle) hup
      have hnow : term = (w.rf i).currentTerm := heq.trans hsame
      rcases hholds hnow with hholds | hclosed
      · rw [hnow]
        exact ((step_rf hstep i).holdsVote hdisk hsame hholds).imp_right fun hclosed => hclosed.step hd hstep
      · exact Or.inr (hclosed.step hd hstep)
    · obtain ⟨hterm, hholds, -⟩ := he.voted hask hstep
      exact ⟨Nat.le_of_eq hterm.symm, fun _ => Or.inl hholds⟩
  · intro i term c₁ c₂ log₁ log₂ h₁ h₂
    rcases origin h₁ with h₁ | h₁ <;> rcases origin h₂ with h₂ | h₂
    · exact h.once h₁ h₂
    · exact (apart h₁ h₂).elim
    · exact (apart h₂ h₁).elim
    · exact h₁.voted_unique h₂

theorem Reachable.votesOnce {P : Cluster n C → Action n C → Prop} {w : World n C} (hw : Reachable P w)
    (hask : ∀ s a, P s a → Guard.LeaderNotAsked s a) (hdisk : ∀ s a, P s a → Guard.VoteOnDisk s a) :
    w.VotesOnce := by
  refine Reachable.keeps ?_ hw votesOnce_init
  intro w w' a hw h ha hs
  exact h.step hw.durable (hask _ _ ha) (hdisk _ _ ha) hs

end World

/-- In every run in which no leader is asked for a vote in its own term by a candidate that is up to date and
    no server crashes with its vote in memory only, as long as somebody can ask for one of that term: a server gives its vote of a term to one candidate. -/
theorem one_vote_per_term {w : World n C}
    (hw : World.Reachable (fun s a => Guard.LeaderNotAsked s a ∧ Guard.VoteOnDisk s a) w)
    {i : Fin n} {term : Nat} {c₁ c₂ : Fin n} {log₁ log₂ : List (Log C)}
    (h₁ : .voted i term c₁ log₁ ∈ w.events) (h₂ : .voted i term c₂ log₂ ∈ w.events) : c₁ = c₂ :=
  (hw.votesOnce (fun _ _ h => h.1) (fun _ _ h => h.2)).once h₁ h₂

/-- Server 0 stands and votes for itself, server 1 votes for it; then server 0 crashes, restarts and stands
    again. -/
def voteAndRestart : List (Action 3 Nat) :=
  [.startElectionTimer 0, .candidate 0, .requestVote 0, .sendRequestVote 0, .poll 0 0, .leader 0, .crash 0,
    .startElectionTimer 0, .candidate 0, .requestVote 2]

theorem one_vote_per_term_restart : ∃ w,
    (World.init 3 Nat).exec (fun s a => Guard.LeaderNotAsked s a ∧ Guard.VoteOnDisk s a) voteAndRestart = some w ∧
    .voted 1 1 0 [⟨0, none⟩] ∈ w.events ∧ .voted 1 2 0 [⟨0, none⟩] ∈ w.events ∧
    ∀ (c : Fin 3) (log : List (Log Nat)), .voted 1 2 c log ∈ w.events → 0 = c := by
  obtain ⟨w, hw, he⟩ := World.exec_any (fun s a => Guard.LeaderNotAsked s a ∧ Guard.VoteOnDisk s a)
    (World.init 3 Nat) voteAndRestart
    (fun w => decide (.voted 1 1 0 [⟨0, none⟩] ∈ w.events ∧ .voted 1 2 0 [⟨0, none⟩] ∈ w.events)) (by decide)
  obtain ⟨h1, h2⟩ := of_decide_eq_true he
  exact ⟨w, hw, h1, h2, fun c log hc => one_vote_per_term (World.exec_steps hw) h2 hc⟩

/-- Servers 0 and 2 stand for term 1; server 1 elects server 0, whose `votedFor` is then cleared, and server 0
    gives server 2 its second vote of the term. -/
def leaderVotes : List (Action 3 Nat) :=
  [.startElectionTimer 0, .candidate 0, .startElectionTimer 2, .candidate 2, .requestVote 0, .sendRequestVote 0,
    .poll 0 0, .leader 0, .requestVote 2]

theorem leader_votes_twice : ∃ w : World 3 Nat, World.Reachable World.Any w ∧
    .voted 0 1 0 [⟨0, none⟩] ∈ w.events ∧ .voted 0 1 2 [⟨0, none⟩] ∈ w.events := by
  obtain ⟨w, hw, he⟩ := World.exec_any World.Any (World.init 3 Nat) leaderVotes
    (fun w => decide (.voted 0 1 0 [⟨0, none⟩] ∈ w.events ∧ .voted 0 1 2 [⟨0, none⟩] ∈ w.events)) (by decide)
  exact ⟨w, World.exec_steps hw, of_decide_eq_true he⟩

end DistributedLabs
