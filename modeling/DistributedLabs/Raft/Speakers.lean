import DistributedLabs.Raft.Election
import DistributedLabs.Raft.Events

/-! Who speaks. `AppendEntries` messages are built by the leader loop, which runs as long as the server is no
    follower, and by the heartbeats of a leader. -/

namespace DistributedLabs

open Quorum

variable {n : Nat} {C : Type}

/-- Whoever speaks does so for the term it is in, as a leader or in a leader loop that was left over when it became a
    candidate and that has something to send. -/
theorem EventStep.speaker {s s' : Cluster n C} {a : Action n C} {i : Fin n} {t : Nat} {l : List (Log C)}
    (h : EventStep s a s' (.spoke i t l)) : t = (s.peers i).rf.currentTerm ∧ ((s.peers i).rf.state = .leader ∨
      (a = .leaderLoop i ∧ (s.peers i).rf.state = .candidate ∧
        ∃ p, (s.peers i).rf.nextIndex p < (s.peers i).rf.log.length)) := by
  cases h with
  | replicated ha _ hf hsend =>
    refine ⟨rfl, ?_⟩
    cases hst : (s.peers i).rf.state with
    | leader => exact Or.inl rfl
    | candidate => exact Or.inr ⟨ha, rfl, hsend⟩
    | follower => exact absurd hst hf
  | heartbeat _ hl => exact ⟨rfl, Or.inl hl⟩
  | started _ hl => exact ⟨rfl, Or.inl hl⟩

/-- Whoever speaks leads, if leader loops that are left over have nothing to send. -/
theorem EventStep.speaker_leads {s s' : Cluster n C} {a : Action n C} {i : Fin n} {t : Nat} {l : List (Log C)}
    (hg : Guard.LoopSilent s a) (h : EventStep s a s' (.spoke i t l)) :
    (s.peers i).rf.state = .leader ∧ t = (s.peers i).rf.currentTerm := by
  obtain ⟨hterm, hl | ⟨rfl, hcand, p, hp⟩⟩ := h.speaker
  · exact ⟨hl, hterm⟩
  · exact absurd (hg i rfl hcand p) (Nat.not_le.mpr hp)

/-! ### Leftover leader loops -/

/-- An election begins only when every leader loop of the server has ended. -/
def Guard.LoopsEnded (s : Cluster n C) (a : Action n C) : Prop := ∀ i ∈ a.stands, (s.peers i).leaders = 0

instance (s : Cluster n C) (a : Action n C) : Decidable (Guard.LoopsEnded s a) :=
  inferInstanceAs (Decidable (∀ i ∈ a.stands, _))

/-- No candidate has a leader loop. -/
def Cluster.NoStrayLoop (s : Cluster n C) : Prop := ∀ i, (s.peers i).rf.state = .candidate → (s.peers i).leaders = 0

theorem Cluster.NoStrayLoop.step {s s' : Cluster n C} {a : Action n C} {es : List (Event n C)} (h : s.NoStrayLoop)
    (hg : Guard.LoopsEnded s a) (hs : DistributedLabs.step s a = some (s', es)) : s'.NoStrayLoop := by
  intro i hcand
  rcases step_leaders hs i with hle | hlead
  · suffices hzero : (s.peers i).leaders = 0 by omega
    cases (step_rf hs i).tally with
    | follower hf =>
      rw [hf] at hcand
      cases hcand
    | stood ha => exact hg i (by rw [ha]; rfl)
    | counted _ _ _ _ _ _ hrf =>
      rw [hrf] at hcand
      exact h i hcand
    | installed _ hrf =>
      rw [hrf] at hcand
      cases hcand
    | kept _ _ hstate => exact h i (hstate ▸ hcand)
  · rw [hlead] at hcand
    cases hcand

/-! ### Own votes -/

namespace World

/-- A server that is not a follower has voted for itself in its term. -/
def SelfVoted (w : World n C) : Prop :=
  ∀ i, (w.rf i).state ≠ .follower → ∃ log, .voted i (w.rf i).currentTerm i log ∈ w.events

theorem SelfVoted.step {w w' : World n C} {a : Action n C} (h : w.SelfVoted)
    (hinstall : Guard.MajorityAtInstall w.cluster a) (hs : w.step a = some w') : w'.SelfVoted := by
  obtain ⟨es, hstep, -⟩ := step_inv hs
  intro i hf
  -- A step that leaves the server in its term and no less than a candidate.
  have on : (w'.rf i).currentTerm = (w.rf i).currentTerm → (w.rf i).state ≠ .follower →
      ∃ log, .voted i (w'.rf i).currentTerm i log ∈ w'.events := by
    intro hterm hf
    obtain ⟨log, hlog⟩ := h i hf
    rw [hterm]
    exact ⟨log, step_events_subset hs hlog⟩
  cases (step_rf hstep i).tally with
  | follower hfol => exact absurd hfol hf
  | stood ha hcand =>
    subst ha
    obtain ⟨-, -, ⟨hnone, -⟩ | ⟨rf, args, hcand', -, rfl⟩⟩ := Step.candidate_inv hstep
    · rw [hcand] at hnone
      cases hnone
    · rw [hcand] at hcand'
      cases hcand'
      obtain ⟨_, -, hrf, rfl⟩ := Raft.candidate_inv hcand
      refine ⟨(w'.rf i).log, mem_events_of_mem hstep hs (List.mem_cons_of_mem _ ?_)⟩
      unfold World.rf
      rw [List.mem_singleton, hrf]
      rfl
  | counted _ _ _ _ _ _ hrf =>
    have hrf : w'.rf i = (w.rf i).countVote := hrf
    rw [hrf] at hf
    exact on (by rw [hrf]; rfl) hf
  | installed ha hrf =>
    subst ha
    have hrf : w'.rf i = (w.rf i).leader := hrf
    exact on (by rw [hrf]; rfl) (hinstall i rfl).1
  | kept hterm _ hstate =>
    have hstate : (w'.rf i).state = (w.rf i).state := hstate
    exact on hterm (hstate ▸ hf)

end World

/-! ### Messages -/

/-- A vote is counted in its term, and `leader()` begins with a majority. -/
def Guard.Counted (s : Cluster n C) (a : Action n C) : Prop := VoteCountedInTerm s a ∧ MajorityAtInstall s a

instance (s : Cluster n C) (a : Action n C) : Decidable (Guard.Counted s a) := inferInstanceAs (Decidable (_ ∧ _))

/-- And an election begins when the leader loops of the server have ended. -/
def Guard.Speaks (s : Cluster n C) (a : Action n C) : Prop := Counted s a ∧ LoopsEnded s a

instance (s : Cluster n C) (a : Action n C) : Decidable (Guard.Speaks s a) := inferInstanceAs (Decidable (_ ∧ _))

namespace World

variable {w w' : World n C}

/-- The server that has built the message leads the term of the message, and a majority with the server itself has voted
    for it in that term. -/
def SpeaksFor (w : World n C) (c : AppendCall n C) : Prop :=
  (w.rf c.caller).state = .leader ∧ (w.rf c.caller).currentTerm = c.args.term ∧
    ∃ Q : Finset (Fin n), n / 2 < Q.card ∧ c.caller ∈ Q ∧
      ∀ p ∈ Q, ∃ log, .voted p c.args.term c.caller log ∈ w.events

theorem Reachable.of_speaks (hw : Reachable Guard.Speaks w) : Reachable Guard.Counted w :=
  Run.Steps.mono_reached (fun _ _ _ _ hg _ => hg.1) hw

theorem Reachable.noStrayLoop (hw : Reachable Guard.Speaks w) : w.cluster.NoStrayLoop := by
  refine Steps.keeps (I := fun w => w.cluster.NoStrayLoop) ?_ hw fun i hcand => by cases hcand
  intro w w' a h hg hs
  obtain ⟨es, hstep, -⟩ := step_inv hs
  exact h.step hg.2 hstep

theorem Reachable.selfVoted (hw : Reachable Guard.Counted w) : w.SelfVoted := by
  refine Steps.keeps (I := SelfVoted) ?_ hw fun i hf => absurd rfl hf
  intro w w' a h hg hs
  exact h.step hg.2 hs

/-- A leader was elected, with its own vote among the majority. -/
theorem Reachable.speaksFor (hw : Reachable Guard.Counted w) {c : AppendCall n C}
    (hl : (w.rf c.caller).state = .leader) (hterm : (w.rf c.caller).currentTerm = c.args.term) : w.SpeaksFor c := by
  obtain ⟨Q, hQ, hv⟩ := (hw.elections (fun _ _ h => h.1) (fun _ _ h => h.2)).won c.caller hl
  refine ⟨hl, hterm, insert c.caller Q, ?_, Finset.mem_insert_self _ _, fun p hp => ?_⟩
  · exact Nat.lt_of_lt_of_le (isMajority_fin.mp hQ) (Finset.card_le_card (Finset.subset_insert _ _))
  · rw [← hterm]
    rcases Finset.mem_insert.mp hp with rfl | hp
    · exact hw.selfVoted _ (by rw [hl]; simp)
    · exact hv p hp

end World

/-- In every run that meets these conditions: a step that builds an `AppendEntries` message of a server is one of a
    leader in the term of the message, and a majority with the server itself had voted for it in that term before. Where
    leader loops are left over, that is so exactly for the messages that are not built by a candidate. -/
theorem only_elected_leaders_speak {w w' : World n C} {a : Action n C} (hs : w.step a = some w') {k : Nat}
    (hk : w.cluster.appendCalls.length ≤ k) {c : AppendCall n C} (hc : w'.cluster.appendCalls[k]? = some c) :
    (World.Reachable Guard.Speaks w → w.SpeaksFor c) ∧
    (World.Reachable Guard.Counted w → (w.SpeaksFor c ↔ (w.rf c.caller).state ≠ .candidate)) := by
  obtain ⟨es, hstep, -⟩ := World.step_inv hs
  obtain ⟨hb, hspoke⟩ := step_newCall hstep hk hc
  obtain ⟨-, hspeaker⟩ := (step_event hstep hspoke).speaker
  have hterm : (w.rf c.caller).currentTerm = c.args.term := hb.term.symm
  refine ⟨fun hw => ?_, fun hw => ⟨fun h hcand => ?_, fun hno => ?_⟩⟩
  · rcases hspeaker with hl | ⟨rfl, hcand, -⟩
    · exact hw.of_speaks.speaksFor hl hterm
    · -- A candidate has no loop that could run a round.
      obtain ⟨-, hpos, -⟩ := Step.leaderLoop_inv hstep
      rw [hw.noStrayLoop _ hcand] at hpos
      exact absurd hpos (Nat.lt_irrefl 0)
  · rw [h.1] at hcand
    cases hcand
  · rcases hspeaker with hl | ⟨-, hcand, -⟩
    · exact hw.speaksFor hl hterm
    · exact absurd hcand hno

/-- Server 0 is elected in term 1 and takes a command. -/
def speaking : List (Action 3 Nat) :=
  [.startElectionTimer 0, .candidate 0, .requestVote 0, .sendRequestVote 0, .poll 0 0, .leader 0, .start 0 (some 10)]

theorem only_elected_leaders_speak_loop : ∃ w w' : World 3 Nat, w.step (.leaderLoop 0) = some w' ∧
    ∃ c : AppendCall 3 Nat, w'.cluster.appendCalls[1]? = some c ∧ c.args.entries = [⟨1, some 10⟩] ∧
      (w.rf c.caller).state = .leader ∧ (w.rf c.caller).currentTerm = c.args.term := by
  obtain ⟨w, hw, h⟩ := World.exec_any Guard.Speaks (World.init 3 Nat) speaking
    (fun w => decide (w.cluster.appendCalls.length = 0) && (w.step (.leaderLoop 0)).any fun (w' : World 3 Nat) =>
      (w'.cluster.appendCalls[1]?).any fun (c : AppendCall 3 Nat) =>
        decide (c.args.entries = [(⟨1, some 10⟩ : Log Nat)])) (by decide)
  obtain ⟨hlen, h⟩ := Bool.and_eq_true_iff.mp h
  obtain ⟨w', hs, h⟩ := (Option.any_eq_true _ _).mp h
  obtain ⟨c, hc, h⟩ := (Option.any_eq_true _ _).mp h
  obtain ⟨hspeaks, -⟩ := only_elected_leaders_speak hs (by rw [of_decide_eq_true hlen]; exact Nat.zero_le 1) hc
  obtain ⟨hl, hterm, -⟩ := hspeaks (World.exec_steps hw)
  exact ⟨w, w', hs, c, hc, of_decide_eq_true h, hl, hterm⟩

/-- The election timer that the candidate started fires while server 0 leads: it stands for term 2, and its leader
    loop goes on. -/
theorem candidate_speaks : ∃ w w' : World 3 Nat, World.Reachable World.Any w ∧ w.step (.leaderLoop 0) = some w' ∧
    (∃ c : AppendCall 3 Nat, w.cluster.appendCalls.length ≤ 1 ∧ w'.cluster.appendCalls[1]? = some c ∧ c.caller = 0 ∧
      c.args.term = 2) ∧
    (w.rf 0).state = .candidate := by
  obtain ⟨w, hw, h⟩ := World.exec_any World.Any (World.init 3 Nat) (speaking ++ [.startElectionTimer 0, .candidate 0])
    (fun w => (w.step (.leaderLoop 0)).any fun (w' : World 3 Nat) =>
      ((w'.cluster.appendCalls[1]?).any fun (c : AppendCall 3 Nat) => decide (c.caller = 0 ∧ c.args.term = 2)) &&
        decide (w.cluster.appendCalls.length ≤ 1 ∧ (w.rf 0).state = .candidate)) (by decide)
  obtain ⟨w', hs, h⟩ := (Option.any_eq_true _ _).mp h
  obtain ⟨hcall, h⟩ := Bool.and_eq_true_iff.mp h
  obtain ⟨c, hc, hcall⟩ := (Option.any_eq_true _ _).mp hcall
  obtain ⟨hcaller, hterm⟩ := of_decide_eq_true hcall
  obtain ⟨hlen, hst⟩ := of_decide_eq_true h
  exact ⟨w, w', World.exec_steps hw, hs, ⟨c, hlen, hc, hcaller, hterm⟩, hst⟩

end DistributedLabs
