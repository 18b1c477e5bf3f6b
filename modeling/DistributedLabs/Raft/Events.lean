import DistributedLabs.Raft.World

/-! Where the events of a step come from: the section that made each of them known, with the state it
    read and the server it left. -/

namespace DistributedLabs

variable {n : Nat} {C : Type}

inductive EventStep (s : Cluster n C) (a : Action n C) (s' : Cluster n C) : Event n C → Prop where
  | stood {i : Fin n} {rf : Raft n C} {args : RequestVoteArgs n} (ha : a = .candidate i)
      (hc : (s.peers i).rf.candidate = some (rf, args)) (hrf : (s'.peers i).rf = rf) :
      EventStep s a s' (.stood i args.term rf.log)
  | selfVoted {i : Fin n} {rf : Raft n C} {args : RequestVoteArgs n} (ha : a = .candidate i)
      (hc : (s.peers i).rf.candidate = some (rf, args)) (hrf : (s'.peers i).rf = rf) :
      EventStep s a s' (.voted i args.term i rf.log)
  | granted {k term : Nat} {c : VoteCall n} {rf : Raft n C} (ha : a = .requestVote k)
      (hc : s.voteCalls[k]? = some c)
      (hv : (s.peers c.server).rf.requestVote c.args = some (rf, ⟨term, true⟩))
      (hrf : (s'.peers c.server).rf = rf) :
      EventStep s a s' (.voted c.server term c.args.candidateID (s.peers c.server).rf.log)
  | replicated {i : Fin n} (ha : a = .leaderLoop i) (hl : 0 < (s.peers i).leaders)
      (hf : (s.peers i).rf.state ≠ .follower) (hsend : ∃ p, (s.peers i).rf.nextIndex p < (s.peers i).rf.log.length)
      (hlog : (s'.peers i).rf.log = (s.peers i).rf.log)
      (hterm : (s'.peers i).rf.currentTerm = (s.peers i).rf.currentTerm) :
      EventStep s a s' (.spoke i (s.peers i).rf.currentTerm (s.peers i).rf.log)
  | heartbeat {i : Fin n} (ha : a = .startHeartBeat i) (hl : (s.peers i).rf.state = .leader) (hs : s'.peers = s.peers) :
      EventStep s a s' (.spoke i (s.peers i).rf.currentTerm (s.peers i).rf.log)
  | started {i : Fin n} {command : Option C} (ha : a = .start i command) (hl : (s.peers i).rf.state = .leader)
      (hrf : (s'.peers i).rf = (s.peers i).rf.appendCommand command) :
      EventStep s a s' (.spoke i (s.peers i).rf.currentTerm ((s.peers i).rf.appendCommand command).log)
  | accepted {k : Nat} {c : AppendCall n C} {rf : Raft n C} {reply : AppendEntriesReply} (ha : a = .appendEntriesLog k)
      (hc : s.appendCalls[k]? = some c) (hl : (s.peers c.server).rf.appendEntriesLog c.args = (rf, reply))
      (hsucc : reply.success = true) (hterm : reply.term = c.args.term) (hrf : (s'.peers c.server).rf = rf) :
      EventStep s a s' (.accepted c.server reply.term (c.args.prevLogIndex + c.args.entries.length + 1))
  | committed {i : Fin n} (ha : a = .leaderLoop i) (hf : (s.peers i).rf.state ≠ .follower)
      (hne : (s.peers i).rf.commit.commitIndex ≠ (s.peers i).rf.commitIndex)
      (hrf : (s'.peers i).rf = (s.peers i).rf.commit) :
      EventStep s a s' (.committed i (s.peers i).rf.currentTerm (s.peers i).rf.commit.commitIndex)
  | applied {i : Fin n} {msg : ApplyMsg C} (ha : a = .applier i)
      (hlt : (s.peers i).rf.lastApplied < (s.peers i).rf.commitIndex)
      (hm : msg ∈ (s.peers i).rf.apply.2.1) : EventStep s a s' (.applied i msg)

/-- A vote is the self-vote of a candidate, or the vote that a handler granted. -/
theorem EventStep.voted_inv {s s' : Cluster n C} {a : Action n C} {i c : Fin n} {term : Nat} {log : List (Log C)}
    (h : EventStep s a s' (.voted i term c log)) :
    (∃ rf args, a = .candidate i ∧ (s.peers i).rf.candidate = some (rf, args) ∧ (s'.peers i).rf = rf ∧
      term = args.term ∧ c = i ∧ log = rf.log) ∨
    (∃ k d rf, a = .requestVote k ∧ s.voteCalls[k]? = some d ∧ d.server = i ∧
      (s.peers i).rf.requestVote d.args = some (rf, ⟨term, true⟩) ∧ (s'.peers i).rf = rf ∧
      c = d.args.candidateID ∧ log = (s.peers i).rf.log) := by
  cases h with
  | selfVoted ha hc hrf => exact Or.inl ⟨_, _, ha, hc, hrf, rfl, rfl, rfl⟩
  | granted ha hc hv hrf => exact Or.inr ⟨_, _, _, ha, hc, rfl, hv, hrf, rfl, rfl⟩

section Parts
variable {rf : Raft n C} {i : Fin n} {e : Event n C}

theorem of_mem_spokeEvents {calls : List (Fin n × AppendEntriesArgs n C)} (h : e ∈ Step.spokeEvents rf i calls) :
    calls ≠ [] ∧ e = .spoke i rf.currentTerm rf.log := by
  unfold Step.spokeEvents at h
  split at h
  · cases h
  · rename_i hne
    exact ⟨fun hnil => hne (List.isEmpty_iff.mpr hnil), List.mem_singleton.mp h⟩

theorem of_mem_committedEvents {commitIndex : Nat} (h : e ∈ Step.committedEvents rf i commitIndex) :
    commitIndex ≠ rf.commitIndex ∧ e = .committed i rf.currentTerm commitIndex := by
  unfold Step.committedEvents at h
  split at h
  · cases h
  · rename_i hne
    exact ⟨hne, List.mem_singleton.mp h⟩

end Parts

theorem step_event {s s' : Cluster n C} {a : Action n C} {es : List (Event n C)} (h : step s a = some (s', es))
    {e : Event n C} (he : e ∈ es) : EventStep s a s' e := by
  cases a with
  | startElectionTimer i =>
    obtain ⟨-, -, -, rfl⟩ := Step.startElectionTimer_inv h
    cases he
  | candidate i =>
    obtain ⟨-, -, ⟨-, -, rfl⟩ | ⟨rf, args, hc, rfl, rfl⟩⟩ := Step.candidate_inv h
    · cases he
    · have hrf : (((s.setPeer i ((s.peers i).stand rf args.term)).callVotes i args).peers i).rf = rf := by
        rw [Cluster.callVotes_peers, Cluster.setPeer_self, Peer.stand_rf]
      rcases List.mem_cons.mp he with rfl | he
      · exact .stood rfl hc hrf
      · rw [List.mem_singleton.mp he]
        exact .selfVoted rfl hc hrf
  | poll i k =>
    obtain ⟨_, -, -, rfl, -⟩ := Step.poll_inv h
    cases he
  | leader i =>
    obtain ⟨-, -, -, rfl⟩ := Step.leader_inv h
    cases he
  | leaderLoop i =>
    obtain ⟨-, hl, ⟨-, -, rfl⟩ | ⟨hf, calls, hr, rfl, rfl⟩ | ⟨hf, calls, hr, rfl, rfl⟩⟩ := Step.leaderLoop_inv h
    · cases he
    · rcases List.mem_append.mp he with he | he
      · obtain ⟨hne, rfl⟩ := of_mem_spokeEvents he
        refine .replicated rfl hl hf (Raft.replicate_exists hr hne) ?_ ?_ <;> rw [Cluster.callAppends_peers, Cluster.setPeer_self] <;> rfl
      · obtain ⟨hne, rfl⟩ := of_mem_committedEvents he
        refine .committed rfl hf hne ?_
        rw [Cluster.callAppends_peers, Cluster.setPeer_self, Peer.withRf_rf]
    · obtain ⟨hne, rfl⟩ := of_mem_spokeEvents he
      refine .replicated rfl hl hf (Raft.replicate_exists hr hne) ?_ ?_ <;>
        rw [Cluster.callAppends_peers, Cluster.panic_self] <;> rfl
  | startHeartBeat i =>
    obtain ⟨-, -, ⟨-, -, rfl⟩ | ⟨-, -, -, rfl⟩ | ⟨hl, _, -, rfl, rfl⟩⟩ := Step.startHeartBeat_inv h
    · cases he
    · cases he
    · rw [List.mem_singleton.mp he]
      exact .heartbeat rfl hl rfl
  | start i command =>
    obtain ⟨-, rfl, rfl⟩ := Step.start_inv h
    by_cases hl : (s.peers i).rf.state = .leader
    · rw [Raft.start_of_leader hl] at he ⊢
      rw [List.mem_singleton.mp he]
      exact .started rfl hl (by rw [Cluster.setPeer_self, Peer.withRf_rf])
    · rw [Raft.start_of_not_leader hl] at he
      cases he
  | requestVote k =>
    obtain ⟨c, hc, -, -, ⟨-, -, rfl⟩ | ⟨rf, ⟨term, granted⟩, hv, rfl, rfl⟩⟩ := Step.requestVote_inv h
    · cases he
    · cases granted with
      | false => cases he
      | true =>
        rw [List.mem_singleton.mp he]
        exact .granted rfl hc hv (by rw [Cluster.setVoteStage_peers, Cluster.setPeer_self, Peer.withRf_rf])
  | sendRequestVote k =>
    obtain ⟨_, _, -, -, -, -, rfl, -⟩ := Step.sendRequestVote_inv h
    cases he
  | appendEntriesTerm k =>
    obtain ⟨_, _, -, -, -, rfl, -⟩ := Step.appendEntriesTerm_inv h
    cases he
  | appendEntriesLog k =>
    obtain ⟨c, rf, reply, hc, -, -, hl, rfl, rfl⟩ := Step.appendEntriesLog_inv h
    by_cases hsucc : reply.success = true ∧ reply.term = c.args.term
    · rw [if_pos hsucc] at he
      rw [List.mem_singleton.mp he]
      exact .accepted rfl hc hl hsucc.1 hsucc.2 (by rw [Cluster.setAppendStage_peers, Cluster.setPeer_self, Peer.withRf_rf])
    · rw [if_neg hsucc] at he
      cases he
  | sendAppendEntries k =>
    obtain ⟨_, _, -, -, -, -, rfl, -⟩ := Step.sendAppendEntries_inv h
    cases he
  | applier i =>
    obtain ⟨-, hlt, rf, msgs, rfl, ha⟩ := Step.applier_inv h
    obtain ⟨msg, hm, rfl⟩ := List.mem_map.mp he
    refine .applied rfl hlt ?_
    rcases ha with ⟨ha, -⟩ | ⟨ha, -⟩ <;> rw [ha] <;> exact hm
  | crash i =>
    obtain ⟨_, -, -, rfl⟩ := Step.crash_inv h
    cases he

/-- An event of a world after a step was there before, names the server that acted, or comes from the step. -/
theorem World.step_event {w w' : World n C} {a : Action n C} (h : w.step a = some w') {e : Event n C}
    (he : e ∈ w'.events) : e ∈ w.events ∨ (∃ i, e = .acted i a) ∨ EventStep w.cluster a w'.cluster e := by
  obtain ⟨es, hs, hw⟩ := World.step_inv h
  rw [hw, List.mem_append, List.mem_append] at he
  rcases he with he | he | he
  · exact Or.inl he
  · obtain ⟨i, -, rfl⟩ := List.mem_map.mp he
    exact Or.inr (Or.inl ⟨i, rfl⟩)
  · exact Or.inr (Or.inr (DistributedLabs.step_event hs he))

end DistributedLabs
