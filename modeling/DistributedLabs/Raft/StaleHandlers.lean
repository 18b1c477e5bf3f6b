import DistributedLabs.Raft.Guards
import DistributedLabs.Raft.LogShape

/-! The gap in `AppendEntries`. The handler checks the term in its first section, releases the lock to reset the
    timer and writes the log in its second section, which does not look at the term again. -/

namespace DistributedLabs

variable {n : Nat} {C : Type}

/-- The term that an action brings to its server, which takes it over if it is behind. A reply of another term than
    its request is dropped. -/
def Action.term (s : Cluster n C) : Action n C → Option Nat
  | .candidate i => some ((s.peers i).rf.currentTerm + 1)
  | .requestVote k => (s.voteCalls[k]?).map fun c => c.args.term
  | .sendRequestVote k => (s.voteCalls[k]?).bind fun c => (c.reply.map RequestVoteReply.term).filter (· = c.args.term)
  | .appendEntriesTerm k => (s.appendCalls[k]?).map fun c => c.args.term
  | .sendAppendEntries k =>
    (s.appendCalls[k]?).bind fun c => (c.reply.map AppendEntriesReply.term).filter (· = c.args.term)
  | _ => none

/-- The call is between its two sections, in the running incarnation of its server. -/
def Call.Suspended {Args Reply : Type} (s : Cluster n C) (c : Call n Args Reply) : Prop :=
  c.stage = .handling (s.peers c.server).epoch

instance (s : Cluster n C) (c : AppendCall n C) : Decidable (c.Suspended s) := inferInstanceAs (Decidable (_ = _))

/-- No action raises the term of a server while one of its `AppendEntries` with entries is between its two sections. -/
def Guard.TermKept (s : Cluster n C) (a : Action n C) : Prop :=
  ∀ i ∈ a.server s, ∀ t ∈ a.term s, (∃ c ∈ s.appendCalls, c.server = i ∧ c.Suspended s ∧ c.args.entries ≠ []) →
    t ≤ (s.peers i).rf.currentTerm

instance (s : Cluster n C) (a : Action n C) : Decidable (Guard.TermKept s a) :=
  inferInstanceAs (Decidable (∀ i ∈ a.server s, ∀ t ∈ a.term s, _))

section Step
variable {s s' : Cluster n C} {a : Action n C} {es : List (Event n C)}

/-- The term of a server moves only to a higher one that the action brings, or with a restart. -/
theorem RfStep.term_moves {i : Fin n} {rf : Raft n C} (h : RfStep s a i rf) :
    rf.currentTerm = (s.peers i).rf.currentTerm ∨ (∃ t ∈ a.term s, (s.peers i).rf.currentTerm < t) ∨
      a = .crash i := by
  -- A handler that catches up with the term of its request.
  have caught : ∀ {term : Nat}, term ∈ a.term s → (s.peers i).rf.currentTerm ≤ term →
      ((s.peers i).rf.catchUp term).currentTerm = (s.peers i).rf.currentTerm ∨
        ∃ t ∈ a.term s, (s.peers i).rf.currentTerm < t := by
    intro term hmem hle
    rcases Nat.lt_or_eq_of_le hle with hlt | rfl
    · exact Or.inr ⟨term, hmem, hlt⟩
    · exact Or.inl (Raft.catchUp_currentTerm (Nat.le_refl _))
  cases h with
  | candidate _ ha =>
    subst ha
    exact Or.inr (Or.inl ⟨_, rfl, Nat.lt_succ_self _⟩)
  | start command =>
    by_cases hl : (s.peers i).rf.state = .leader
    · rw [Raft.start_of_leader hl]
      exact Or.inl rfl
    · rw [Raft.start_of_not_leader hl]
      exact Or.inl rfl
  | @requestVote k c _ _ hc hi h ha =>
    have hmem : c.args.term ∈ a.term s := by
      subst ha
      exact congrArg (Option.map fun c => c.args.term) hc
    rcases Raft.requestVote_inv h with ⟨-, rfl, -⟩ | ⟨hle, rfl, -⟩ | ⟨hle, -, -, rfl, -⟩
    · exact Or.inl rfl
    · exact (caught hmem hle).imp_right Or.inl
    · rw [Raft.vote_currentTerm]
      exact (caught hmem hle).imp_right Or.inl
  | @sendRequestVote k c reply hc hi hst ha =>
    rcases Raft.sendRequestVote_cases (s.peers i).rf c.args reply with h | ⟨hterm, hlt, -⟩ | ⟨-, -, -, h⟩
    · rw [h]
      exact Or.inl rfl
    · subst ha
      refine Or.inr (Or.inl ⟨reply.term, ?_, hlt⟩)
      simp [Action.term, hc, Call.reply, hst, hterm]
    · rw [h]
      exact Or.inl rfl
  | @appendEntriesTerm k c _ _ hc hi h ha =>
    have hmem : c.args.term ∈ a.term s := by
      subst ha
      exact congrArg (Option.map fun c => c.args.term) hc
    rcases Raft.appendEntriesTerm_inv h with ⟨-, rfl, -⟩ | ⟨hle, rfl, -⟩
    · exact Or.inl rfl
    · exact (caught hmem hle).imp_right Or.inl
  | appendEntriesLog _ _ _ h =>
    rcases (Raft.appendEntriesLog_inv h).2 with ⟨-, rfl⟩ | ⟨-, -, ⟨-, rfl⟩ | ⟨-, rfl⟩⟩
    · exact Or.inl rfl
    · exact Or.inl rfl
    · exact Or.inl (Raft.accept_currentTerm _ _)
  | @sendAppendEntries k c reply hc hi hst ha =>
    rcases Raft.sendAppendEntries_cases (s.peers i).rf c.server c.args reply with
      ⟨-, h⟩ | ⟨hterm, hlt, -⟩ | ⟨-, -, -, h⟩ | ⟨-, -, -, h⟩
    · rw [h]
      exact Or.inl rfl
    · subst ha
      refine Or.inr (Or.inl ⟨reply.term, ?_, hlt⟩)
      simp [Action.term, hc, Call.reply, hst, hterm]
    · rw [h]
      exact Or.inl rfl
    · rw [h]
      exact Or.inl rfl
  | crash _ ha => exact Or.inr (Or.inr ha)
  | _ => exact Or.inl rfl

/-- An incarnation with a suspended `AppendEntries` that has entries stays in its term. -/
theorem Guard.TermKept.step (hg : Guard.TermKept s a) (hs : DistributedLabs.step s a = some (s', es))
    {c : AppendCall n C} (hc : c ∈ s.appendCalls) (hst : c.Suspended s) (hne : c.args.entries ≠ [])
    (hepoch : (s'.peers c.server).epoch = (s.peers c.server).epoch) :
    (s'.peers c.server).rf.currentTerm = (s.peers c.server).rf.currentTerm := by
  obtain ⟨i, hi, hother⟩ := step_other hs
  by_cases hserver : c.server = i
  · rcases (step_rf hs c.server).term_moves with h | ⟨t, ht, hlt⟩ | ha
    · exact h
    · have := hg i hi t ht ⟨c, hc, hserver, hst, hne⟩
      rw [hserver] at hlt
      omega
    · subst ha
      obtain ⟨rf, -, hs', -⟩ := Step.crash_inv hs
      rw [hs', Cluster.setPeer_self] at hepoch
      exact absurd hepoch (Nat.succ_ne_self _)
  · rw [hother _ hserver]

/-- Every suspended `AppendEntries` with entries is one of the term that its server is in. -/
def Cluster.SuspendedInTerm (s : Cluster n C) : Prop :=
  ∀ c ∈ s.appendCalls, ∀ e, c.stage = .handling e → e ≤ (s.peers c.server).epoch ∧
    (c.Suspended s → c.args.entries ≠ [] → c.args.term = (s.peers c.server).rf.currentTerm)

theorem Cluster.SuspendedInTerm.step (h : s.SuspendedInTerm) (hg : Guard.TermKept s a)
    (hs : DistributedLabs.step s a = some (s', es)) : s'.SuspendedInTerm := by
  intro c hc e hst
  have hep := (step_peer hs c.server).epoch_le
  cases step_appendCalls hs hc with
  | old hold =>
    obtain ⟨hle, hterm⟩ := h c hold e hst
    refine ⟨Nat.le_trans hle hep, fun hsus hne => ?_⟩
    -- The incarnation that began the call is the one that runs, before the step as after it.
    have he : e = (s'.peers c.server).epoch := by
      unfold Call.Suspended at hsus
      rw [hst] at hsus
      exact Stage.handling.inj hsus
    have hbefore : c.Suspended s := by
      unfold Call.Suspended
      rw [hst, Nat.le_antisymm hle (he ▸ hep)]
    rw [hg.step hs hold hbefore hne (Nat.le_antisymm (he ▸ hle) hep)]
    exact hterm hbefore hne
  | built _ _ hsent =>
    rw [hsent] at hst
    cases hst
  | refused => cases hst
  | begun _ _ hle hp =>
    cases hst
    refine ⟨hep, fun _ _ => ?_⟩
    dsimp only
    rw [hp, Peer.withRf_rf, Raft.catchUp_currentTerm hle]
  | answered => cases hst
  | returned => cases hst

end Step

theorem World.Steps.suspendedInTerm {w w' : World n C} (hs : World.Steps Guard.TermKept w w')
    (h : w.cluster.SuspendedInTerm) : w'.cluster.SuspendedInTerm := by
  refine World.Steps.keeps (I := fun w => w.cluster.SuspendedInTerm) ?_ hs h
  intro w w' a h hg hs
  obtain ⟨es, hs, -⟩ := World.step_inv hs
  exact h.step hg hs

/-- From any state in which no `AppendEntries` is between its sections, in every run in which no server's term rises
    while one with entries is: a section of `AppendEntries` that changes the log or `commitIndex` of its server is one of the term
    that the server is in, before and after it. -/
theorem changes_in_term {w₀ w w' : World n C}
    (hidle : ∀ c ∈ w₀.cluster.appendCalls, ∀ e, c.stage ≠ .handling e) (hw : World.Steps Guard.TermKept w₀ w)
    {a : Action n C} {k : Nat} (ha : a = .appendEntriesTerm k ∨ a = .appendEntriesLog k) {c : AppendCall n C}
    (hc : w.cluster.appendCalls[k]? = some c) (hs : w.step a = some w')
    (hchanged : (w'.rf c.server).log ≠ (w.rf c.server).log ∨
      (w'.rf c.server).commitIndex ≠ (w.rf c.server).commitIndex) :
    c.args.term = (w.rf c.server).currentTerm ∧ c.args.term = (w'.rf c.server).currentTerm := by
  have hinv := hw.suspendedInTerm fun c hc e hst => absurd hst (hidle c hc e)
  obtain ⟨es, hstep, -⟩ := World.step_inv hs
  rcases ha with rfl | rfl
  · -- The first section writes neither of the two.
    obtain ⟨d, rf, hd, -, -, -, hsec⟩ := Step.appendEntriesTerm_inv hstep
    rw [hc] at hd
    cases hd
    have hrf : w'.rf c.server = rf := by
      rcases hsec with ⟨reply, -, hw'⟩ | ⟨-, hw'⟩ <;> exact World.rf_of_setPeer hw' rfl
    have hkept : rf.log = (w.rf c.server).log ∧ rf.commitIndex = (w.rf c.server).commitIndex := by
      rcases hsec with ⟨reply, ht, -⟩ | ⟨ht, -⟩ <;>
        rcases Raft.appendEntriesTerm_inv ht with ⟨-, rfl, -⟩ | ⟨-, rfl, -⟩
      · exact ⟨rfl, rfl⟩
      · exact ⟨Raft.catchUp_log _ _, Raft.catchUp_commitIndex _ _⟩
      · exact ⟨rfl, rfl⟩
      · exact ⟨Raft.catchUp_log _ _, Raft.catchUp_commitIndex _ _⟩
    rw [hrf] at hchanged
    rcases hchanged with h | h
    · exact absurd hkept.1 h
    · exact absurd hkept.2 h
  · obtain ⟨d, rf, reply, hd, -, hst, hl, hw', -⟩ := Step.appendEntriesLog_inv hstep
    rw [hc] at hd
    cases hd
    have hrf : w'.rf c.server = rf := World.rf_of_setPeer hw' rfl
    -- A section that writes the log or the index has entries to write.
    have hne : c.args.entries ≠ [] := by
      intro hnil
      have hsame : rf = w.rf c.server := by
        rcases (Raft.appendEntriesLog_inv hl).2 with ⟨-, heq⟩ | ⟨-, -, ⟨-, heq⟩ | ⟨hne, -⟩⟩
        · exact heq
        · exact heq
        · exact absurd hnil hne
      rw [hrf, hsame] at hchanged
      rcases hchanged with h | h <;> exact h rfl
    have hterm := (hinv c (List.mem_of_getElem? hc) _ hst).2 hst hne
    have hkept : (w'.rf c.server).currentTerm = (w.rf c.server).currentTerm := by
      rcases (step_rf hstep c.server).term_moves with h | ⟨t, ht, -⟩ | ha
      · exact h
      · cases ht
      · cases ha
    exact ⟨hterm, hterm.trans hkept.symm⟩

/-- Server 0 leads term 1 and its first entry reaches the first section of server 2. Before the second section runs,
    server 2 is elected in term 2 and commits an entry of its own at the same index. -/
def staleHandler : List (Action 3 Nat) :=
  [.startElectionTimer 0, .candidate 0, .requestVote 0, .sendRequestVote 0, .poll 0 0, .leader 0, .start 0 (some 10),
    .leaderLoop 0, .appendEntriesTerm 2, .startElectionTimer 2, .candidate 2, .requestVote 3, .sendRequestVote 3,
    .poll 2 0, .leader 2, .start 2 (some 20), .leaderLoop 2, .appendEntriesTerm 4, .appendEntriesLog 4,
    .sendAppendEntries 4, .appendEntriesTerm 5, .appendEntriesLog 5, .sendAppendEntries 5, .leaderLoop 2]

/-- The same entry reaches both sections of server 2 in term 1. -/
def timelyHandler : List (Action 3 Nat) :=
  [.startElectionTimer 0, .candidate 0, .requestVote 0, .sendRequestVote 0, .poll 0 0, .leader 0, .start 0 (some 10),
    .leaderLoop 0, .appendEntriesTerm 2]

theorem changes_in_term_timely : ∃ w w' : World 3 Nat, w.step (.appendEntriesLog 2) = some w' ∧
    (w'.rf 2).log ≠ (w.rf 2).log ∧ ∃ c ∈ w.cluster.appendCalls, c.server = 2 ∧ c.args.term = (w.rf 2).currentTerm := by
  obtain ⟨w, hw, h⟩ := World.exec_any Guard.TermKept (World.init 3 Nat) timelyHandler
    (fun w => (w.step (.appendEntriesLog 2)).any fun (w' : World 3 Nat) =>
      (w.cluster.appendCalls[2]?).any fun (c : AppendCall 3 Nat) => decide (c.server = 2 ∧ (w'.rf 2).log ≠ (w.rf 2).log)) (by decide)
  obtain ⟨w', hs, h⟩ := (Option.any_eq_true _ _).mp h
  obtain ⟨c, hc, h⟩ := (Option.any_eq_true _ _).mp h
  obtain ⟨hserver, hne⟩ := of_decide_eq_true h
  have hterm := changes_in_term (fun c hc => by cases hc) (World.exec_steps hw)
    (Or.inr rfl) hc hs (Or.inl (by rw [hserver]; exact hne))
  rw [hserver] at hterm
  exact ⟨w, w', hs, hne, c, List.mem_of_getElem? hc, hserver, hterm.1⟩

/-- The second section of an `AppendEntries` of term 1 replaces an entry in the log of a server in term 2. -/
theorem stale_term_changes_log : ∃ w w' : World 3 Nat, World.Reachable World.Any w ∧
    w.step (.appendEntriesLog 2) = some w' ∧ (∃ c, w.cluster.appendCalls[2]? = some c ∧ c.server = 2 ∧ c.args.term = 1) ∧
    (w.rf 2).currentTerm = 2 ∧ (w'.rf 2).currentTerm = 2 ∧ (w.rf 2).log = [⟨0, none⟩, ⟨2, some 20⟩] ∧
    (w'.rf 2).log = [⟨0, none⟩, ⟨1, some 10⟩] := by
  obtain ⟨w, hw, h⟩ := World.exec_any World.Any (World.init 3 Nat) staleHandler
    (fun w => (w.step (.appendEntriesLog 2)).any fun (w' : World 3 Nat) =>
      ((w.cluster.appendCalls[2]?).any fun (c : AppendCall 3 Nat) => decide (c.server = 2 ∧ c.args.term = 1)) &&
        decide ((w.rf 2).currentTerm = 2 ∧ (w'.rf 2).currentTerm = 2 ∧
          (w.rf 2).log = [(⟨0, none⟩ : Log Nat), ⟨2, some 20⟩] ∧
          (w'.rf 2).log = [(⟨0, none⟩ : Log Nat), ⟨1, some 10⟩])) (by decide)
  obtain ⟨w', hs, h⟩ := (Option.any_eq_true _ _).mp h
  obtain ⟨hcall, h⟩ := Bool.and_eq_true_iff.mp h
  obtain ⟨c, hc, hcall⟩ := (Option.any_eq_true _ _).mp hcall
  exact ⟨w, w', World.exec_steps hw, hs, ⟨c, hc, of_decide_eq_true hcall⟩, of_decide_eq_true h⟩

end DistributedLabs
