import DistributedLabs.Raft.Cluster

/-! What each step can do, read off its definition once: the guards it passed, the state it leaves and the
    events it makes known. Later proofs use these and never unfold a step. -/

namespace DistributedLabs

variable {n : Nat} {C : Type}

/-! ### Fields of an updated cluster -/

namespace Cluster

variable (s : Cluster n C)

@[simp] theorem setPeer_self (i : Fin n) (p : Peer n C) : (s.setPeer i p).peers i = p := if_pos rfl

theorem setPeer_ne {i j : Fin n} (p : Peer n C) (h : j ≠ i) : (s.setPeer i p).peers j = s.peers j := if_neg h

@[simp] theorem setPeer_voteCalls (i : Fin n) (p : Peer n C) : (s.setPeer i p).voteCalls = s.voteCalls := rfl

@[simp] theorem setPeer_appendCalls (i : Fin n) (p : Peer n C) : (s.setPeer i p).appendCalls = s.appendCalls := rfl

@[simp] theorem panic_self (i : Fin n) : (s.panic i).peers i = (s.peers i).panic := setPeer_self s i _

@[simp] theorem panic_voteCalls (i : Fin n) : (s.panic i).voteCalls = s.voteCalls := rfl

@[simp] theorem panic_appendCalls (i : Fin n) : (s.panic i).appendCalls = s.appendCalls := rfl

@[simp] theorem setVoteStage_peers (k : Nat) (c : VoteCall n) (stage : Stage RequestVoteReply) :
    (s.setVoteStage k c stage).peers = s.peers := rfl

@[simp] theorem setVoteStage_voteCalls (k : Nat) (c : VoteCall n) (stage : Stage RequestVoteReply) :
    (s.setVoteStage k c stage).voteCalls = s.voteCalls.set k { c with stage } := rfl

@[simp] theorem setVoteStage_appendCalls (k : Nat) (c : VoteCall n) (stage : Stage RequestVoteReply) :
    (s.setVoteStage k c stage).appendCalls = s.appendCalls := rfl

@[simp] theorem setAppendStage_peers (k : Nat) (c : AppendCall n C) (stage : Stage AppendEntriesReply) :
    (s.setAppendStage k c stage).peers = s.peers := rfl

@[simp] theorem setAppendStage_voteCalls (k : Nat) (c : AppendCall n C) (stage : Stage AppendEntriesReply) :
    (s.setAppendStage k c stage).voteCalls = s.voteCalls := rfl

@[simp] theorem setAppendStage_appendCalls (k : Nat) (c : AppendCall n C) (stage : Stage AppendEntriesReply) :
    (s.setAppendStage k c stage).appendCalls = s.appendCalls.set k { c with stage } := rfl

@[simp] theorem callVotes_peers (i : Fin n) (args : RequestVoteArgs n) : (s.callVotes i args).peers = s.peers := rfl

@[simp] theorem callVotes_appendCalls (i : Fin n) (args : RequestVoteArgs n) :
    (s.callVotes i args).appendCalls = s.appendCalls := rfl

@[simp] theorem callAppends_peers (i : Fin n) (calls : List (Fin n × AppendEntriesArgs n C)) :
    (s.callAppends i calls).peers = s.peers := rfl

@[simp] theorem callAppends_voteCalls (i : Fin n) (calls : List (Fin n × AppendEntriesArgs n C)) :
    (s.callAppends i calls).voteCalls = s.voteCalls := rfl

end Cluster

/-! ### Inversion of the steps -/

namespace Step

variable {s s' : Cluster n C} {es : List (Event n C)} {i : Fin n} {k : Nat}

theorem startElectionTimer_inv (h : startElectionTimer s i = some (s', es)) :
    (s.peers i).panicked = false ∧ 0 < (s.peers i).timers ∧ s' = s.setPeer i (s.peers i).fire ∧ es = [] := by
  unfold startElectionTimer at h
  split at h
  · cases h
  · rename_i hg
    simp only [not_or, Bool.not_eq_true] at hg
    cases h
    exact ⟨hg.1, Nat.pos_of_ne_zero hg.2, rfl, rfl⟩

theorem candidate_inv (h : candidate s i = some (s', es)) :
    (s.peers i).panicked = false ∧ 0 < (s.peers i).candidates ∧
      (((s.peers i).rf.candidate = none ∧ s' = s.panic i ∧ es = []) ∨
       ∃ rf args, (s.peers i).rf.candidate = some (rf, args) ∧
        s' = (s.setPeer i ((s.peers i).stand rf args.term)).callVotes i args ∧
        es = [.stood i args.term rf.log, .voted i args.term i rf.log]) := by
  unfold candidate at h
  split at h
  · cases h
  · rename_i hg
    simp only [not_or, Bool.not_eq_true] at hg
    refine ⟨hg.1, Nat.pos_of_ne_zero hg.2, ?_⟩
    split at h
    · rename_i hc
      cases h
      exact Or.inl ⟨hc, rfl, rfl⟩
    · rename_i rf args hc
      cases h
      exact Or.inr ⟨rf, args, hc, rfl, rfl⟩

theorem poll_inv (h : poll s i k = some (s', es)) :
    ∃ term, (s.peers i).polling[k]? = some term ∧ (s.peers i).panicked = false ∧ es = [] ∧
      (((s.peers i).rf.poll term = .wins ∧ s' = s.setPeer i ((s.peers i).win k)) ∨
       ((s.peers i).rf.poll term = .follows ∧ s' = s.setPeer i ((s.peers i).follow k)) ∨
       ((s.peers i).rf.poll term = .superseded ∧ s' = s.setPeer i ((s.peers i).giveUp k)) ∨
       ((s.peers i).rf.poll term = .waits ∧ s' = s)) := by
  unfold poll at h
  split at h
  · cases h
  · rename_i term hk
    split at h
    · cases h
    · rename_i hp
      refine ⟨term, hk, by simpa using hp, ?_⟩
      split at h <;> rename_i hpoll <;> cases h
      · exact ⟨rfl, Or.inl ⟨hpoll, rfl⟩⟩
      · exact ⟨rfl, Or.inr (Or.inl ⟨hpoll, rfl⟩)⟩
      · exact ⟨rfl, Or.inr (Or.inr (Or.inl ⟨hpoll, rfl⟩))⟩
      · exact ⟨rfl, Or.inr (Or.inr (Or.inr ⟨hpoll, rfl⟩))⟩

theorem leader_inv (h : leader s i = some (s', es)) :
    (s.peers i).panicked = false ∧ 0 < (s.peers i).starting ∧ s' = s.setPeer i (s.peers i).lead ∧ es = [] := by
  unfold leader at h
  split at h
  · cases h
  · rename_i hg
    simp only [not_or, Bool.not_eq_true] at hg
    cases h
    exact ⟨hg.1, Nat.pos_of_ne_zero hg.2, rfl, rfl⟩

theorem leaderLoop_inv (h : leaderLoop s i = some (s', es)) :
    (s.peers i).panicked = false ∧ 0 < (s.peers i).leaders ∧
      (((s.peers i).rf.state = .follower ∧ s' = s.setPeer i (s.peers i).retire ∧ es = []) ∨
       ((s.peers i).rf.state ≠ .follower ∧ ∃ calls, (s.peers i).rf.replicate (List.finRange n) = (calls, true) ∧
          s' = (s.setPeer i ((s.peers i).withRf (s.peers i).rf.commit)).callAppends i calls ∧
          es = spokeEvents (s.peers i).rf i calls ++
            committedEvents (s.peers i).rf i (s.peers i).rf.commit.commitIndex) ∨
       ((s.peers i).rf.state ≠ .follower ∧ ∃ calls, (s.peers i).rf.replicate (List.finRange n) = (calls, false) ∧
          s' = (s.panic i).callAppends i calls ∧ es = spokeEvents (s.peers i).rf i calls)) := by
  unfold leaderLoop at h
  split at h
  · cases h
  · rename_i hg
    simp only [not_or, Bool.not_eq_true] at hg
    refine ⟨hg.1, Nat.pos_of_ne_zero hg.2, ?_⟩
    split at h
    · rename_i hf
      cases h
      exact Or.inl ⟨hf, rfl, rfl⟩
    · rename_i hf
      split at h
      · rename_i calls hr
        cases h
        exact Or.inr (Or.inl ⟨hf, calls, hr, rfl, rfl⟩)
      · rename_i calls hr
        cases h
        exact Or.inr (Or.inr ⟨hf, calls, hr, rfl, rfl⟩)

theorem startHeartBeat_inv (h : startHeartBeat s i = some (s', es)) :
    (s.peers i).panicked = false ∧ 0 < (s.peers i).heartbeats ∧
      (((s.peers i).rf.state ≠ .leader ∧ s' = s.setPeer i (s.peers i).quiet ∧ es = []) ∨
       ((s.peers i).rf.state = .leader ∧ (s.peers i).rf.startHeartBeat = none ∧ s' = s.panic i ∧ es = []) ∨
       ((s.peers i).rf.state = .leader ∧ ∃ args, (s.peers i).rf.startHeartBeat = some args ∧
          s' = s.callAppends i (((List.finRange n).filter (· ≠ i)).map fun j => (j, args)) ∧
          es = [.spoke i (s.peers i).rf.currentTerm (s.peers i).rf.log])) := by
  unfold startHeartBeat at h
  split at h
  · cases h
  · rename_i hg
    simp only [not_or, Bool.not_eq_true] at hg
    refine ⟨hg.1, Nat.pos_of_ne_zero hg.2, ?_⟩
    split at h
    · rename_i hl
      cases h
      exact Or.inl ⟨hl, rfl, rfl⟩
    · rename_i hl
      have hl' : (s.peers i).rf.state = .leader := not_not.mp hl
      split at h
      · rename_i hb
        cases h
        exact Or.inr (Or.inl ⟨hl', hb, rfl, rfl⟩)
      · rename_i args hb
        cases h
        exact Or.inr (Or.inr ⟨hl', args, hb, rfl, rfl⟩)

theorem start_inv {command : Option C} (h : start s i command = some (s', es)) :
    (s.peers i).panicked = false ∧ s' = s.setPeer i ((s.peers i).withRf ((s.peers i).rf.start command).1) ∧
      es = if ((s.peers i).rf.start command).2.2.2 then
        [.spoke i ((s.peers i).rf.start command).2.2.1 ((s.peers i).rf.start command).1.log] else [] := by
  unfold start at h
  split at h
  · cases h
  · rename_i hp
    cases h
    exact ⟨by simpa using hp, rfl, rfl⟩

theorem requestVote_inv (h : requestVote s k = some (s', es)) :
    ∃ c, s.voteCalls[k]? = some c ∧ (s.peers c.server).panicked = false ∧ c.stage = .sent ∧
      (((s.peers c.server).rf.requestVote c.args = none ∧
          s' = (s.panic c.server).setVoteStage k c (.handling (s.peers c.server).epoch) ∧ es = []) ∨
       ∃ rf reply, (s.peers c.server).rf.requestVote c.args = some (rf, reply) ∧
          s' = (s.setPeer c.server ((s.peers c.server).withRf rf)).setVoteStage k c (.replied reply) ∧
          es = if reply.voteGranted then
            [.voted c.server reply.term c.args.candidateID (s.peers c.server).rf.log] else []) := by
  unfold requestVote at h
  split at h
  · cases h
  · rename_i c hc
    split at h
    · cases h
    · rename_i hg
      simp only [not_or, Bool.not_eq_true, ne_eq, not_not] at hg
      refine ⟨c, hc, hg.1, hg.2, ?_⟩
      split at h
      · rename_i hv
        cases h
        exact Or.inl ⟨hv, rfl, rfl⟩
      · rename_i rf reply hv
        cases h
        exact Or.inr ⟨rf, reply, hv, rfl, rfl⟩

theorem sendRequestVote_inv (h : sendRequestVote s k = some (s', es)) :
    ∃ c reply, s.voteCalls[k]? = some c ∧ c.stage = .replied reply ∧ (s.peers c.caller).panicked = false ∧
      (s.peers c.caller).epoch = c.epoch ∧ es = [] ∧
      s' = (s.setPeer c.caller ((s.peers c.caller).withRf
        ((s.peers c.caller).rf.sendRequestVote c.args reply))).setVoteStage k c (.returned reply) := by
  unfold sendRequestVote at h
  split at h
  · cases h
  · rename_i c hc
    split at h
    · rename_i reply hst
      split at h
      · cases h
      · rename_i hg
        simp only [not_or, Bool.not_eq_true, ne_eq, not_not] at hg
        cases h
        exact ⟨c, reply, hc, hst, hg.1, hg.2, rfl, rfl⟩
    · cases h

theorem appendEntriesTerm_inv (h : appendEntriesTerm s k = some (s', es)) :
    ∃ c rf, s.appendCalls[k]? = some c ∧ (s.peers c.server).panicked = false ∧ c.stage = .sent ∧ es = [] ∧
      ((∃ reply, (s.peers c.server).rf.appendEntriesTerm c.args = (rf, some reply) ∧
          s' = (s.setPeer c.server ((s.peers c.server).withRf rf)).setAppendStage k c (.replied reply)) ∨
       ((s.peers c.server).rf.appendEntriesTerm c.args = (rf, none) ∧
          s' = (s.setPeer c.server ((s.peers c.server).withRf rf)).setAppendStage k c
            (.handling (s.peers c.server).epoch))) := by
  unfold appendEntriesTerm at h
  split at h
  · cases h
  · rename_i c hc
    split at h
    · cases h
    · rename_i hg
      simp only [not_or, Bool.not_eq_true, ne_eq, not_not] at hg
      split at h
      · rename_i rf reply ht
        cases h
        exact ⟨c, rf, hc, hg.1, hg.2, rfl, Or.inl ⟨reply, ht, rfl⟩⟩
      · rename_i rf ht
        cases h
        exact ⟨c, rf, hc, hg.1, hg.2, rfl, Or.inr ⟨ht, rfl⟩⟩

theorem appendEntriesLog_inv (h : appendEntriesLog s k = some (s', es)) :
    ∃ c rf reply, s.appendCalls[k]? = some c ∧ (s.peers c.server).panicked = false ∧
      c.stage = .handling (s.peers c.server).epoch ∧
      (s.peers c.server).rf.appendEntriesLog c.args = (rf, reply) ∧
      s' = (s.setPeer c.server ((s.peers c.server).withRf rf)).setAppendStage k c (.replied reply) ∧
      es = if reply.success ∧ reply.term = c.args.term then
        [.accepted c.server reply.term (c.args.prevLogIndex + c.args.entries.length + 1)] else [] := by
  unfold appendEntriesLog at h
  split at h
  · cases h
  · rename_i c hc
    split at h
    · cases h
    · rename_i hg
      simp only [not_or, Bool.not_eq_true, ne_eq, not_not] at hg
      split at h
      rename_i rf reply hl
      cases h
      exact ⟨c, rf, reply, hc, hg.1, hg.2, hl, rfl, rfl⟩

theorem sendAppendEntries_inv (h : sendAppendEntries s k = some (s', es)) :
    ∃ c reply, s.appendCalls[k]? = some c ∧ c.stage = .replied reply ∧ (s.peers c.caller).panicked = false ∧
      (s.peers c.caller).epoch = c.epoch ∧ es = [] ∧
      s' = (s.setPeer c.caller ((s.peers c.caller).withRf
        ((s.peers c.caller).rf.sendAppendEntries c.server c.args reply))).setAppendStage k c (.returned reply) := by
  unfold sendAppendEntries at h
  split at h
  · cases h
  · rename_i c hc
    split at h
    · rename_i reply hst
      split at h
      · cases h
      · rename_i hg
        simp only [not_or, Bool.not_eq_true, ne_eq, not_not] at hg
        cases h
        exact ⟨c, reply, hc, hst, hg.1, hg.2, rfl, rfl⟩
    · cases h

theorem applier_inv (h : applier s i = some (s', es)) :
    (s.peers i).panicked = false ∧ (s.peers i).rf.lastApplied < (s.peers i).rf.commitIndex ∧
      ∃ rf msgs, es = msgs.map (.applied i) ∧
        (((s.peers i).rf.apply = (rf, msgs, true) ∧ s' = s.setPeer i ((s.peers i).withRf rf)) ∨
         ((s.peers i).rf.apply = (rf, msgs, false) ∧ s' = s.panic i)) := by
  unfold applier at h
  split at h
  · cases h
  · rename_i hg
    simp only [not_or, Bool.not_eq_true, Nat.not_le] at hg
    refine ⟨hg.1, hg.2, ?_⟩
    split at h
    · rename_i rf msgs ha
      cases h
      exact ⟨rf, msgs, rfl, Or.inl ⟨ha, rfl⟩⟩
    · rename_i rf msgs ha
      cases h
      exact ⟨rf, msgs, rfl, Or.inr ⟨ha, rfl⟩⟩

theorem crash_inv (h : crash s i = some (s', es)) :
    ∃ rf, Raft.make i (s.peers i).rf.persister = some rf ∧
      s' = s.setPeer i (Peer.boot rf ((s.peers i).epoch + 1)) ∧ es = [] := by
  unfold crash at h
  split at h
  · cases h
  · rename_i rf hm
    cases h
    exact ⟨rf, hm, rfl, rfl⟩

end Step

end DistributedLabs
