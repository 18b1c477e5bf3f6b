import DistributedLabs.Lib.Table
import DistributedLabs.Raft.World

/-! The two tables of calls. A step adds calls at the end of a table, built by the server that acts, or
    moves one call on; everything else about a call stays as it was. -/

namespace DistributedLabs

open Table

variable {n : Nat} {C : Type}

/-- The steps that write the table of `RequestVote` calls. -/
def Action.votes : Action n C → Bool
  | .candidate _ | .requestVote _ | .sendRequestVote _ => true
  | _ => false

/-- The steps that write the table of `AppendEntries` calls. -/
def Action.appends : Action n C → Bool
  | .leaderLoop _ | .startHeartBeat _ | .appendEntriesTerm _ | .appendEntriesLog _ | .sendAppendEntries _ => true
  | _ => false

theorem step_calls_kept {s s' : Cluster n C} {a : Action n C} {es : List (Event n C)} (h : step s a = some (s', es)) :
    (a.votes = false → s'.voteCalls = s.voteCalls) ∧ (a.appends = false → s'.appendCalls = s.appendCalls) := by
  cases a with
  | startElectionTimer i =>
    obtain ⟨-, -, rfl, -⟩ := Step.startElectionTimer_inv h
    exact ⟨fun _ => rfl, fun _ => rfl⟩
  | candidate i =>
    obtain ⟨-, -, ⟨-, rfl, -⟩ | ⟨_, _, -, rfl, -⟩⟩ := Step.candidate_inv h <;>
      exact ⟨fun hv => (by cases hv), fun _ => rfl⟩
  | poll i k =>
    obtain ⟨_, -, -, -, ⟨-, rfl⟩ | ⟨-, rfl⟩ | ⟨-, rfl⟩ | ⟨-, rfl⟩⟩ := Step.poll_inv h <;>
      exact ⟨fun _ => rfl, fun _ => rfl⟩
  | leader i =>
    obtain ⟨-, -, rfl, -⟩ := Step.leader_inv h
    exact ⟨fun _ => rfl, fun _ => rfl⟩
  | leaderLoop i =>
    obtain ⟨-, -, ⟨-, rfl, -⟩ | ⟨-, _, -, rfl, -⟩ | ⟨-, _, -, rfl, -⟩⟩ := Step.leaderLoop_inv h <;>
      exact ⟨fun _ => rfl, fun ha => (by cases ha)⟩
  | startHeartBeat i =>
    obtain ⟨-, -, ⟨-, rfl, -⟩ | ⟨-, -, rfl, -⟩ | ⟨-, _, -, rfl, -⟩⟩ := Step.startHeartBeat_inv h <;>
      exact ⟨fun _ => rfl, fun ha => (by cases ha)⟩
  | start i command =>
    obtain ⟨-, rfl, -⟩ := Step.start_inv h
    exact ⟨fun _ => rfl, fun _ => rfl⟩
  | requestVote k =>
    obtain ⟨_, -, -, -, ⟨-, rfl, -⟩ | ⟨_, _, -, rfl, -⟩⟩ := Step.requestVote_inv h <;>
      exact ⟨fun hv => (by cases hv), fun _ => rfl⟩
  | sendRequestVote k =>
    obtain ⟨_, _, -, -, -, -, -, rfl⟩ := Step.sendRequestVote_inv h
    exact ⟨fun hv => (by cases hv), fun _ => rfl⟩
  | appendEntriesTerm k =>
    obtain ⟨_, _, -, -, -, -, ⟨_, -, rfl⟩ | ⟨-, rfl⟩⟩ := Step.appendEntriesTerm_inv h <;>
      exact ⟨fun _ => rfl, fun ha => (by cases ha)⟩
  | appendEntriesLog k =>
    obtain ⟨_, _, _, -, -, -, -, rfl, -⟩ := Step.appendEntriesLog_inv h
    exact ⟨fun _ => rfl, fun ha => (by cases ha)⟩
  | sendAppendEntries k =>
    obtain ⟨_, _, -, -, -, -, -, rfl⟩ := Step.sendAppendEntries_inv h
    exact ⟨fun _ => rfl, fun ha => (by cases ha)⟩
  | applier i =>
    obtain ⟨-, -, _, _, -, ⟨-, rfl⟩ | ⟨-, rfl⟩⟩ := Step.applier_inv h <;> exact ⟨fun _ => rfl, fun _ => rfl⟩
  | crash i =>
    obtain ⟨_, -, rfl, -⟩ := Step.crash_inv h
    exact ⟨fun _ => rfl, fun _ => rfl⟩

/-! ### RequestVote calls -/

/-- Where a call in the table after a step comes from. -/
inductive VoteStep (s s' : Cluster n C) (es : List (Event n C)) : VoteCall n → Prop where
  | old {c : VoteCall n} (hc : c ∈ s.voteCalls) : VoteStep s s' es c
  | asked {c : VoteCall n} {rf : Raft n C} (hst : c.stage = .sent) (hne : c.server ≠ c.caller)
      (hcand : (s.peers c.caller).rf.candidate = some (rf, c.args)) (hrf : (s'.peers c.caller).rf = rf)
      (hes : .stood c.caller c.args.term rf.log ∈ es) : VoteStep s s' es c
  | died {c : VoteCall n} {epoch : Nat} (hc : c ∈ s.voteCalls) (hst : c.stage = .sent) :
      VoteStep s s' es { c with stage := .handling epoch }
  | answered {c : VoteCall n} {rf : Raft n C} {reply : RequestVoteReply} (hc : c ∈ s.voteCalls) (hst : c.stage = .sent)
      (hv : (s.peers c.server).rf.requestVote c.args = some (rf, reply))
      (hes : reply.voteGranted = true →
        .voted c.server reply.term c.args.candidateID (s.peers c.server).rf.log ∈ es) :
      VoteStep s s' es { c with stage := .replied reply }
  | returned {c : VoteCall n} {reply : RequestVoteReply} (hc : c ∈ s.voteCalls) (hst : c.stage = .replied reply) :
      VoteStep s s' es { c with stage := .returned reply }

/-- The caller has not taken up a reply. -/
def Call.Open {Args Reply : Type} (c : Call n Args Reply) : Prop := ∀ reply, c.stage ≠ .returned reply

/-- A call is made in this step, or stood in the table before; there it was open if it still is. -/
theorem VoteStep.origin {s s' : Cluster n C} {es : List (Event n C)} {c : VoteCall n} (h : VoteStep s s' es c) :
    (∃ d ∈ s.voteCalls, d.caller = c.caller ∧ d.server = c.server ∧ d.args = c.args ∧ (c.Open → d.Open)) ∨
    (c.stage = .sent ∧ c.server ≠ c.caller ∧ ∃ rf, (s.peers c.caller).rf.candidate = some (rf, c.args) ∧
      (s'.peers c.caller).rf = rf ∧ .stood c.caller c.args.term rf.log ∈ es) := by
  have before : ∀ {d : VoteCall n}, d.stage = .sent → d.Open := fun hst reply h => by
    rw [hst] at h
    cases h
  cases h with
  | old hc => exact Or.inl ⟨c, hc, rfl, rfl, rfl, id⟩
  | asked hst hne hcand hrf hes => exact Or.inr ⟨hst, hne, _, hcand, hrf, hes⟩
  | @died d _ hc hst => exact Or.inl ⟨d, hc, rfl, rfl, rfl, fun _ => before hst⟩
  | @answered d _ _ hc hst => exact Or.inl ⟨d, hc, rfl, rfl, rfl, fun _ => before hst⟩
  | @returned d reply hc => exact Or.inl ⟨d, hc, rfl, rfl, rfl, fun ho => absurd rfl (ho reply)⟩

theorem mem_callVotes {s : Cluster n C} {i : Fin n} {args : RequestVoteArgs n} {c : VoteCall n}
    (h : c ∈ (s.callVotes i args).voteCalls) :
    c ∈ s.voteCalls ∨ ∃ j, j ≠ i ∧ c = ⟨i, (s.peers i).epoch, j, args, .sent⟩ := by
  rcases List.mem_append.mp h with h | h
  · exact Or.inl h
  · obtain ⟨j, hj, rfl⟩ := List.mem_map.mp h
    exact Or.inr ⟨j, by simpa using hj, rfl⟩

theorem step_voteCalls {s s' : Cluster n C} {a : Action n C} {es : List (Event n C)}
    (h : step s a = some (s', es)) {c : VoteCall n} (hc : c ∈ s'.voteCalls) : VoteStep s s' es c := by
  have keep : s'.voteCalls = s.voteCalls → VoteStep s s' es c := fun he => .old (he ▸ hc)
  cases a with
  | candidate i =>
    obtain ⟨-, -, ⟨-, rfl, -⟩ | ⟨rf, args, hcand, rfl, rfl⟩⟩ := Step.candidate_inv h
    · exact keep rfl
    · rcases mem_callVotes hc with hc | ⟨j, hj, rfl⟩
      · exact .old hc
      · refine .asked rfl hj hcand ?_ List.mem_cons_self
        rw [Cluster.callVotes_peers, Cluster.setPeer_self, Peer.stand_rf]
  | requestVote k =>
    obtain ⟨d, hd, -, hst, ⟨-, rfl, -⟩ | ⟨rf, reply, hv, rfl, rfl⟩⟩ := Step.requestVote_inv h
    · rcases List.mem_or_eq_of_mem_set hc with hc | rfl
      · exact .old hc
      · exact .died (List.mem_of_getElem? hd) hst
    · rcases List.mem_or_eq_of_mem_set hc with hc | rfl
      · exact .old hc
      · refine .answered (List.mem_of_getElem? hd) hst hv fun hg => ?_
        rw [hg]
        exact List.mem_singleton_self _
  | sendRequestVote k =>
    obtain ⟨d, reply, hd, hst, -, -, -, rfl⟩ := Step.sendRequestVote_inv h
    rcases List.mem_or_eq_of_mem_set hc with hc | rfl
    · exact .old hc
    · exact .returned (List.mem_of_getElem? hd) hst
  | _ => exact keep ((step_calls_kept h).1 rfl)

/-- Who asks whom in which term. -/
def VoteCall.key (c : VoteCall n) : Fin n × Nat × Fin n := (c.caller, c.args.term, c.server)

/-- Moving a call on changes no key, and the keys of new calls carry a new term of their caller. -/
theorem step_voteKeys {s s' : Cluster n C} {a : Action n C} {es : List (Event n C)} (h : step s a = some (s', es)) :
    s'.voteCalls.map VoteCall.key = s.voteCalls.map VoteCall.key ∨
    ∃ i rf args, (s.peers i).rf.candidate = some (rf, args) ∧
      s'.voteCalls.map VoteCall.key =
        s.voteCalls.map VoteCall.key ++ ((List.finRange n).filter (· ≠ i)).map fun j => (i, args.term, j) := by
  have moved : ∀ {k : Nat} {c : VoteCall n} {stage : Stage RequestVoteReply}, s.voteCalls[k]? = some c →
      (s.voteCalls.set k { c with stage }).map VoteCall.key = s.voteCalls.map VoteCall.key := by
    intro k c stage hk
    exact map_set_of_eq VoteCall.key hk rfl
  cases a with
  | candidate i =>
    obtain ⟨-, -, ⟨-, rfl, -⟩ | ⟨rf, args, hcand, rfl, rfl⟩⟩ := Step.candidate_inv h
    · exact Or.inl rfl
    · refine Or.inr ⟨i, rf, args, hcand, ?_⟩
      unfold Cluster.callVotes
      rw [List.map_append, List.map_map]
      rfl
  | requestVote k =>
    obtain ⟨d, hd, -, -, ⟨-, rfl, -⟩ | ⟨_, _, -, rfl, -⟩⟩ := Step.requestVote_inv h
    · exact Or.inl (moved hd)
    · exact Or.inl (moved hd)
  | sendRequestVote k =>
    obtain ⟨d, reply, hd, -, -, -, -, rfl⟩ := Step.sendRequestVote_inv h
    exact Or.inl (moved hd)
  | _ => exact Or.inl (by rw [(step_calls_kept h).1 rfl])

/-! ### AppendEntries calls -/

/-- Where a call in the table after a step comes from. -/
inductive AppendStep (s s' : Cluster n C) (es : List (Event n C)) : AppendCall n C → Prop where
  | old {c : AppendCall n C} (hc : c ∈ s.appendCalls) : AppendStep s s' es c
  | built {i : Fin n} {c : AppendCall n C} (hcaller : c.caller = i) (hepoch : c.epoch = (s.peers i).epoch)
      (hst : c.stage = .sent) (hb : (s.peers i).rf.BuiltFrom c.args) (hf : (s.peers i).rf.state ≠ .follower)
      (hes : .spoke i (s.peers i).rf.currentTerm (s.peers i).rf.log ∈ es) : AppendStep s s' es c
  | refused {c : AppendCall n C} {reply : AppendEntriesReply} (hc : c ∈ s.appendCalls) (hst : c.stage = .sent)
      (hlt : c.args.term < reply.term) (hr : reply.success = false) : AppendStep s s' es { c with stage := .replied reply }
  | begun {c : AppendCall n C} (hc : c ∈ s.appendCalls) (hst : c.stage = .sent)
      (hle : (s.peers c.server).rf.currentTerm ≤ c.args.term)
      (hp : s'.peers c.server = (s.peers c.server).withRf ((s.peers c.server).rf.catchUp c.args.term)) :
      AppendStep s s' es { c with stage := .handling (s.peers c.server).epoch }
  | answered {c : AppendCall n C} {rf : Raft n C} {reply : AppendEntriesReply} (hc : c ∈ s.appendCalls)
      (hst : c.stage = .handling (s.peers c.server).epoch)
      (hl : (s.peers c.server).rf.appendEntriesLog c.args = (rf, reply))
      (hp : s'.peers c.server = (s.peers c.server).withRf rf)
      (hes : reply.success = true → reply.term = c.args.term →
        .accepted c.server reply.term (c.args.prevLogIndex + c.args.entries.length + 1) ∈ es) :
      AppendStep s s' es { c with stage := .replied reply }
  | returned {c : AppendCall n C} {reply : AppendEntriesReply} (hc : c ∈ s.appendCalls)
      (hst : c.stage = .replied reply) : AppendStep s s' es { c with stage := .returned reply }

/-- A call is built in this step, or stood in the table before with all it keeps for its whole life. -/
theorem AppendStep.origin {s s' : Cluster n C} {es : List (Event n C)} {c : AppendCall n C}
    (h : AppendStep s s' es c) :
    (∃ d ∈ s.appendCalls, d.caller = c.caller ∧ d.epoch = c.epoch ∧ d.server = c.server ∧ d.args = c.args) ∨
    (c.epoch = (s.peers c.caller).epoch ∧ c.stage = .sent ∧ (s.peers c.caller).rf.BuiltFrom c.args ∧
      (s.peers c.caller).rf.state ≠ .follower ∧
      .spoke c.caller (s.peers c.caller).rf.currentTerm (s.peers c.caller).rf.log ∈ es) := by
  cases h with
  | old hc => exact Or.inl ⟨c, hc, rfl, rfl, rfl, rfl⟩
  | built hcaller hepoch hst hb hf hes =>
    subst hcaller
    exact Or.inr ⟨hepoch, hst, hb, hf, hes⟩
  | @refused d _ hc => exact Or.inl ⟨d, hc, rfl, rfl, rfl, rfl⟩
  | @begun d hc => exact Or.inl ⟨d, hc, rfl, rfl, rfl, rfl⟩
  | @answered d _ _ hc => exact Or.inl ⟨d, hc, rfl, rfl, rfl, rfl⟩
  | @returned d _ hc => exact Or.inl ⟨d, hc, rfl, rfl, rfl, rfl⟩

theorem mem_spokeEvents {rf : Raft n C} {i : Fin n} {calls : List (Fin n × AppendEntriesArgs n C)}
    {x : Fin n × AppendEntriesArgs n C} (hx : x ∈ calls) :
    .spoke i rf.currentTerm rf.log ∈ Step.spokeEvents rf i calls := by
  unfold Step.spokeEvents
  cases calls with
  | nil => cases hx
  | cons y calls => simp

/-- What a step does at position `k` of the table, with the section that did it. -/
inductive AppendMove (s : Cluster n C) (a : Action n C) (s' : Cluster n C) (es : List (Event n C)) (k : Nat) :
    AppendCall n C → Prop where
  | kept {c : AppendCall n C} (hc : s.appendCalls[k]? = some c) : AppendMove s a s' es k c
  | built {c : AppendCall n C} (hk : s.appendCalls.length ≤ k) (hepoch : c.epoch = (s.peers c.caller).epoch)
      (hst : c.stage = .sent) (hb : (s.peers c.caller).rf.BuiltFrom c.args)
      (hf : (s.peers c.caller).rf.state ≠ .follower)
      (hes : .spoke c.caller (s.peers c.caller).rf.currentTerm (s.peers c.caller).rf.log ∈ es) : AppendMove s a s' es k c
  | refused {c : AppendCall n C} {reply : AppendEntriesReply} (ha : a = .appendEntriesTerm k)
      (hc : s.appendCalls[k]? = some c) (hst : c.stage = .sent) (hlt : c.args.term < reply.term)
      (hr : reply.success = false) : AppendMove s a s' es k { c with stage := .replied reply }
  | begun {c : AppendCall n C} (ha : a = .appendEntriesTerm k) (hc : s.appendCalls[k]? = some c) (hst : c.stage = .sent)
      (hle : (s.peers c.server).rf.currentTerm ≤ c.args.term)
      (hp : s'.peers c.server = (s.peers c.server).withRf ((s.peers c.server).rf.catchUp c.args.term)) :
      AppendMove s a s' es k { c with stage := .handling (s.peers c.server).epoch }
  | answered {c : AppendCall n C} {rf : Raft n C} {reply : AppendEntriesReply} (ha : a = .appendEntriesLog k)
      (hc : s.appendCalls[k]? = some c) (hst : c.stage = .handling (s.peers c.server).epoch)
      (hl : (s.peers c.server).rf.appendEntriesLog c.args = (rf, reply))
      (hp : s'.peers c.server = (s.peers c.server).withRf rf)
      (hes : reply.success = true → reply.term = c.args.term →
        .accepted c.server reply.term (c.args.prevLogIndex + c.args.entries.length + 1) ∈ es) :
      AppendMove s a s' es k { c with stage := .replied reply }
  | returned {c : AppendCall n C} {reply : AppendEntriesReply} (ha : a = .sendAppendEntries k)
      (hc : s.appendCalls[k]? = some c) (hst : c.stage = .replied reply) :
      AppendMove s a s' es k { c with stage := .returned reply }

theorem getElem?_callAppends {s : Cluster n C} {i : Fin n} {calls : List (Fin n × AppendEntriesArgs n C)} {k : Nat}
    {c : AppendCall n C} (h : (s.callAppends i calls).appendCalls[k]? = some c) :
    s.appendCalls[k]? = some c ∨
      s.appendCalls.length ≤ k ∧ ∃ x ∈ calls, c = ⟨i, (s.peers i).epoch, x.1, x.2, .sent⟩ := by
  unfold Cluster.callAppends at h
  rcases getElem?_append_inv h with hold | ⟨hk, hnew⟩
  · exact Or.inl hold
  · obtain ⟨x, hx, rfl⟩ := List.mem_map.mp hnew
    exact Or.inr ⟨hk, x, hx, rfl⟩

theorem step_appendCall {s s' : Cluster n C} {a : Action n C} {es : List (Event n C)} (h : step s a = some (s', es))
    {k : Nat} {c : AppendCall n C} (hc : s'.appendCalls[k]? = some c) : AppendMove s a s' es k c := by
  have keep : s'.appendCalls = s.appendCalls → AppendMove s a s' es k c := fun he => .kept (he ▸ hc)
  cases a with
  | leaderLoop i =>
    obtain ⟨-, -, ⟨-, rfl, -⟩ | ⟨hf, calls, hr, rfl, rfl⟩ | ⟨hf, calls, hr, rfl, rfl⟩⟩ := Step.leaderLoop_inv h
    · exact keep rfl
    · rcases getElem?_callAppends hc with hc | ⟨hk, x, hx, rfl⟩
      · exact .kept hc
      · refine .built hk ?_ rfl (Raft.replicate_built hr x hx) hf (List.mem_append_left _ (mem_spokeEvents hx))
        rw [Cluster.setPeer_self]
        rfl
    · rcases getElem?_callAppends hc with hc | ⟨hk, x, hx, rfl⟩
      · exact .kept hc
      · refine .built hk ?_ rfl (Raft.replicate_built hr x hx) hf (mem_spokeEvents hx)
        rw [Cluster.panic_self]
        rfl
  | startHeartBeat i =>
    obtain ⟨-, -, ⟨-, rfl, -⟩ | ⟨-, -, rfl, -⟩ | ⟨hl, args, hb, rfl, rfl⟩⟩ := Step.startHeartBeat_inv h
    · exact keep rfl
    · exact keep rfl
    · rcases getElem?_callAppends hc with hc | ⟨hk, x, hx, rfl⟩
      · exact .kept hc
      · obtain ⟨j, -, rfl⟩ := List.mem_map.mp hx
        exact .built hk rfl rfl (Raft.startHeartBeat_built hb) (by rw [hl]; simp) (List.mem_singleton_self _)
  | appendEntriesTerm k' =>
    obtain ⟨d, rf, hd, -, hst, -, ⟨reply, ht, rfl⟩ | ⟨ht, rfl⟩⟩ := Step.appendEntriesTerm_inv h
    · rcases getElem?_set_inv hc with ⟨rfl, rfl⟩ | ⟨-, hc⟩
      · rcases Raft.appendEntriesTerm_inv ht with ⟨hlt, -, hr⟩ | ⟨-, -, hr⟩
        · cases hr
          exact .refused rfl hd hst hlt rfl
        · cases hr
      · exact .kept hc
    · rcases getElem?_set_inv hc with ⟨rfl, rfl⟩ | ⟨-, hc⟩
      · rcases Raft.appendEntriesTerm_inv ht with ⟨-, -, hr⟩ | ⟨hle, rfl, -⟩
        · cases hr
        · exact .begun rfl hd hst hle (Cluster.setPeer_self s d.server _)
      · exact .kept hc
  | appendEntriesLog k' =>
    obtain ⟨d, rf, reply, hd, -, hst, hl, rfl, rfl⟩ := Step.appendEntriesLog_inv h
    rcases getElem?_set_inv hc with ⟨rfl, rfl⟩ | ⟨-, hc⟩
    · refine .answered rfl hd hst hl (Cluster.setPeer_self s d.server _) fun hs hterm => ?_
      rw [if_pos ⟨hs, hterm⟩]
      exact List.mem_singleton_self _
    · exact .kept hc
  | sendAppendEntries k' =>
    obtain ⟨d, reply, hd, hst, -, -, -, rfl⟩ := Step.sendAppendEntries_inv h
    rcases getElem?_set_inv hc with ⟨rfl, rfl⟩ | ⟨-, hc⟩
    · exact .returned rfl hd hst
    · exact .kept hc
  | _ => exact keep ((step_calls_kept h).2 rfl)

/-- A call is built in this step, or stood at its position before with all it keeps for its whole life. -/
theorem AppendMove.origin {s s' : Cluster n C} {a : Action n C} {es : List (Event n C)} {k : Nat} {c : AppendCall n C}
    (h : AppendMove s a s' es k c) :
    (∃ d, s.appendCalls[k]? = some d ∧ d.caller = c.caller ∧ d.server = c.server ∧ d.args = c.args) ∨
    (s.appendCalls.length ≤ k ∧ (s.peers c.caller).rf.BuiltFrom c.args) := by
  cases h with
  | built hk _ _ hb => exact Or.inr ⟨hk, hb⟩
  | kept hold | refused _ hold | begun _ hold | answered _ hold | returned _ hold =>
    exact Or.inl ⟨_, hold, rfl, rfl, rfl⟩

theorem step_appendCalls_length {s s' : Cluster n C} {a : Action n C} {es : List (Event n C)}
    (h : step s a = some (s', es)) : s.appendCalls.length ≤ s'.appendCalls.length := by
  have added : ∀ (s : Cluster n C) (i : Fin n) (calls : List (Fin n × AppendEntriesArgs n C)),
      s.appendCalls.length ≤ (s.callAppends i calls).appendCalls.length := by
    intro s i calls
    unfold Cluster.callAppends
    rw [List.length_append]
    exact Nat.le_add_right _ _
  cases a with
  | leaderLoop i =>
    obtain ⟨-, -, ⟨-, rfl, -⟩ | ⟨-, calls, -, rfl, -⟩ | ⟨-, calls, -, rfl, -⟩⟩ := Step.leaderLoop_inv h
    · exact Nat.le_refl _
    · exact added (s.setPeer i _) i calls
    · exact added (s.panic i) i calls
  | startHeartBeat i =>
    obtain ⟨-, -, ⟨-, rfl, -⟩ | ⟨-, -, rfl, -⟩ | ⟨-, _, -, rfl, -⟩⟩ := Step.startHeartBeat_inv h
    · exact Nat.le_refl _
    · exact Nat.le_refl _
    · exact added s i _
  | appendEntriesTerm k =>
    obtain ⟨_, _, -, -, -, -, ⟨_, -, rfl⟩ | ⟨-, rfl⟩⟩ := Step.appendEntriesTerm_inv h <;>
      exact Nat.le_of_eq List.length_set.symm
  | appendEntriesLog k =>
    obtain ⟨_, _, _, -, -, -, -, rfl, -⟩ := Step.appendEntriesLog_inv h
    exact Nat.le_of_eq List.length_set.symm
  | sendAppendEntries k =>
    obtain ⟨_, _, -, -, -, -, -, rfl⟩ := Step.sendAppendEntries_inv h
    exact Nat.le_of_eq List.length_set.symm
  | _ => exact Nat.le_of_eq (congrArg List.length ((step_calls_kept h).2 rfl).symm)

/-- A call whose reply was taken up stays as it is. -/
theorem step_returned {s s' : Cluster n C} {a : Action n C} {es : List (Event n C)} (h : step s a = some (s', es))
    {k : Nat} {c : AppendCall n C} (hc : s.appendCalls[k]? = some c) {reply : AppendEntriesReply}
    (hst : c.stage = .returned reply) : s'.appendCalls[k]? = some c := by
  have hlt := (List.getElem?_eq_some_iff.mp hc).1
  obtain ⟨d, hd⟩ : ∃ d, s'.appendCalls[k]? = some d :=
    ⟨_, List.getElem?_eq_getElem (Nat.lt_of_lt_of_le hlt (step_appendCalls_length h))⟩
  have stuck : ∀ {d : AppendCall n C} {stage : Stage AppendEntriesReply}, s.appendCalls[k]? = some d →
      d.stage = stage → stage = .returned reply := by
    intro d stage hd hst'
    rw [hc] at hd
    cases hd
    rw [← hst', hst]
  rw [hd]
  cases step_appendCall h hd with
  | kept hold => rw [← hold, hc]
  | built hk => omega
  | refused _ hold hst' | begun _ hold hst' | answered _ hold hst' | returned _ hold hst' => cases stuck hold hst'

theorem step_appendCalls {s s' : Cluster n C} {a : Action n C} {es : List (Event n C)}
    (h : step s a = some (s', es)) {c : AppendCall n C} (hc : c ∈ s'.appendCalls) : AppendStep s s' es c := by
  obtain ⟨k, hk⟩ := List.mem_iff_getElem?.mp hc
  cases step_appendCall h hk with
  | kept hold => exact .old (List.mem_of_getElem? hold)
  | built _ hepoch hst hb hf hes => exact .built rfl hepoch hst hb hf hes
  | refused _ hold hst hlt hr => exact .refused (List.mem_of_getElem? hold) hst hlt hr
  | begun _ hold hst hle hp => exact .begun (List.mem_of_getElem? hold) hst hle hp
  | answered _ hold hst hl hp hes => exact .answered (List.mem_of_getElem? hold) hst hl hp hes
  | returned _ hold hst => exact .returned (List.mem_of_getElem? hold) hst

/-- A reply in the table was there before, is a refusal of an old term, or comes from the second section of the handler,
    run in this step. -/
theorem step_replied {s s' : Cluster n C} {a : Action n C} {es : List (Event n C)} (h : step s a = some (s', es))
    {c : AppendCall n C} (hc : c ∈ s'.appendCalls) {reply : AppendEntriesReply} (hst : c.stage = .replied reply) :
    c ∈ s.appendCalls ∨ c.args.term < reply.term ∨
    ∃ k d rf, a = .appendEntriesLog k ∧ s.appendCalls[k]? = some d ∧ d.args = c.args ∧
      (s.peers d.server).rf.appendEntriesLog d.args = (rf, reply) := by
  obtain ⟨k, hk⟩ := List.mem_iff_getElem?.mp hc
  cases step_appendCall h hk with
  | kept hold => exact Or.inl (List.mem_of_getElem? hold)
  | built _ _ hsent =>
    rw [hsent] at hst
    cases hst
  | refused _ _ _ hlt =>
    cases hst
    exact Or.inr (Or.inl hlt)
  | begun => cases hst
  | answered ha hold _ hl =>
    cases hst
    exact Or.inr (Or.inr ⟨k, _, _, ha, hold, rfl, hl⟩)
  | returned => cases hst

/-- A call at a new position of the table is built in this step. -/
theorem step_newCall {s s' : Cluster n C} {a : Action n C} {es : List (Event n C)} (h : step s a = some (s', es))
    {k : Nat} (hk : s.appendCalls.length ≤ k) {c : AppendCall n C} (hc : s'.appendCalls[k]? = some c) :
    (s.peers c.caller).rf.BuiltFrom c.args ∧
      .spoke c.caller (s.peers c.caller).rf.currentTerm (s.peers c.caller).rf.log ∈ es := by
  have hnone : s.appendCalls[k]? = none := List.getElem?_eq_none hk
  cases step_appendCall h hc with
  | built _ _ _ hb _ hes => exact ⟨hb, hes⟩
  | kept hold | refused _ hold | begun _ hold | answered _ hold | returned _ hold =>
    rw [hnone] at hold
    cases hold

end DistributedLabs
