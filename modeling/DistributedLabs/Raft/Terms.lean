import DistributedLabs.Raft.Election
import DistributedLabs.Raft.StaleHandlers

/-! Terms and roles. The two handlers take over a higher term of a request; the two reply handlers drop a reply whose
    term is not that of the request before they compare it with their own, so that a higher term never gets through.
    And `AppendEntries` makes a server a follower only when it brings a higher term. -/

namespace DistributedLabs

variable {n : Nat} {C : Type}

/-! ### Messages -/

namespace Action

variable (s : Cluster n C)

/-- The server that processes a message in the action, and the term that the message carries. Both sections of
    `AppendEntries` process the request. -/
def message : Action n C → Option (Fin n × Nat)
  | .requestVote k => (s.voteCalls[k]?).map fun c => (c.server, c.args.term)
  | .sendRequestVote k => (s.voteCalls[k]?).bind fun c => c.reply.map fun reply => (c.caller, reply.term)
  | .appendEntriesTerm k | .appendEntriesLog k => (s.appendCalls[k]?).map fun c => (c.server, c.args.term)
  | .sendAppendEntries k => (s.appendCalls[k]?).bind fun c => c.reply.map fun reply => (c.caller, reply.term)
  | _ => none

end Action

/-- A candidate that accepts a message of its own term, in the second section of `AppendEntries`. -/
def Raft.CandidateAccepts (rf : Raft n C) (args : AppendEntriesArgs n C) : Prop :=
  rf.state = .candidate ∧ args.term = rf.currentTerm ∧ (rf.appendEntriesLog args).2.success = true

instance (rf : Raft n C) (args : AppendEntriesArgs n C) : Decidable (rf.CandidateAccepts args) :=
  inferInstanceAs (Decidable (_ ∧ _ ∧ _))

/-- A reply of another term than its request carries no term above that of the server that takes it up, and no
    candidate accepts an `AppendEntries` of its own term. -/
structure Guard.Converges (s : Cluster n C) (a : Action n C) : Prop where
  voteReply : ∀ c ∈ a.voteReply s, ∀ reply ∈ c.reply, reply.term ≠ c.args.term →
    reply.term ≤ (s.peers c.caller).rf.currentTerm
  entriesReply : ∀ c ∈ a.entriesReply s, ∀ reply ∈ c.reply, reply.term ≠ c.args.term →
    reply.term ≤ (s.peers c.caller).rf.currentTerm
  notCandidate : ∀ c ∈ a.entriesRequest s, ¬ (s.peers c.server).rf.CandidateAccepts c.args

instance (s : Cluster n C) (a : Action n C) : Decidable (Guard.Converges s a) :=
  decidable_of_iff ((∀ c ∈ a.voteReply s, ∀ reply ∈ c.reply, reply.term ≠ c.args.term →
        reply.term ≤ (s.peers c.caller).rf.currentTerm) ∧
      (∀ c ∈ a.entriesReply s, ∀ reply ∈ c.reply, reply.term ≠ c.args.term →
        reply.term ≤ (s.peers c.caller).rf.currentTerm) ∧
      ∀ c ∈ a.entriesRequest s, ¬ (s.peers c.server).rf.CandidateAccepts c.args)
    ⟨fun ⟨h₁, h₂, h₃⟩ => ⟨h₁, h₂, h₃⟩, fun ⟨h₁, h₂, h₃⟩ => ⟨h₁, h₂, h₃⟩⟩

/-! ### What holds in every run -/

/-- The terms of calls and votes are terms that their server has reached. -/
structure World.Reached (w : World n C) : Prop where
  asked : w.Asked
  appends : ∀ c ∈ w.cluster.appendCalls, c.args.term ≤ (w.rf c.caller).currentTerm
  voted : ∀ {i term c log}, .voted i term c log ∈ w.events → term ≤ (w.rf i).currentTerm

namespace World

section Step
variable {w w' : World n C} {a : Action n C}

/-- A vote of a term that the server had not reached is that of a candidate for itself or of the handler. -/
theorem Reached.new_vote (h : w.Reached) (hs : w.step a = some w') {i c : Fin n} {term : Nat} {log : List (Log C)}
    (hv : .voted i term c log ∈ w'.events) (hlt : (w.rf i).currentTerm < term) :
    EventStep w.cluster a w'.cluster (.voted i term c log) := by
  rcases step_event hs hv with hold | ⟨j, hj⟩ | hnew
  · exact absurd (h.voted hold) (Nat.not_le.mpr hlt)
  · cases hj
  · exact hnew

theorem Reached.step (h : w.Reached) (hd : w.cluster.Durable) (hme : w.cluster.Named) (hs : w.step a = some w') :
    w'.Reached where
  asked := h.asked.step hd hme hs
  appends c hc := by
    obtain ⟨es, hstep, -⟩ := step_inv hs
    have hup := step_term_le hd hstep c.caller
    rcases (step_appendCalls hstep hc).origin with ⟨d, hmem, hcaller, -, -, hargs⟩ | ⟨-, -, hb, -⟩
    · have hle := h.appends d hmem
      rw [hcaller, hargs] at hle
      exact Nat.le_trans hle hup
    · rw [hb.term]
      exact hup
  voted {i term c log} hv := by
    obtain ⟨es, hstep, -⟩ := step_inv hs
    by_cases hle : term ≤ (w.rf i).currentTerm
    · exact Nat.le_trans hle (step_term_le hd hstep i)
    · have hnew := h.new_vote hs hv (Nat.not_le.mp hle)
      rcases hnew.voted_inv with ⟨rf, args, -, hcand, hrf, rfl, -⟩ | ⟨k, d, rf, -, -, -, hvote, hrf, -⟩
      · obtain ⟨_, -, rfl, rfl⟩ := Raft.candidate_inv hcand
        unfold World.rf
        rw [hrf]
        exact Nat.le_refl _
      · rcases Raft.requestVote_inv hvote with ⟨-, -, hr⟩ | ⟨-, -, hr⟩ | ⟨hterm, -, -, rfl, hr⟩
        · cases hr
        · cases hr
        · cases hr
          unfold World.rf
          rw [hrf, Raft.vote_currentTerm, Raft.catchUp_currentTerm hterm]

end Step

theorem Reachable.reached {P : Cluster n C → Action n C → Prop} {w : World n C} (hw : Reachable P w) : w.Reached := by
  refine Reachable.keeps ?_ hw ⟨asked_init, fun _ hc => (by cases hc), fun hv => (by cases hv)⟩
  intro w w' a hw h _ hs
  exact h.step hw.durable hw.named hs

end World

/-! ### Convergence -/

/-- The handler does not panic on a log with an entry. -/
theorem Raft.requestVote_ne_none {rf : Raft n C} (h : 0 < rf.log.length) (args : RequestVoteArgs n) :
    rf.requestVote args ≠ none := by
  have hlast : rf.log.getLast? ≠ none := by
    rw [ne_eq, List.getLast?_eq_none_iff]
    exact List.ne_nil_of_length_pos h
  unfold Raft.requestVote
  dsimp only
  rw [Raft.catchUp_log]
  split
  · simp
  · split
    · simp
    · split
      · exact absurd ‹_› hlast
      · split <;> simp

/-- What a message of term `t` leaves of server `i`. If the term is new to the server, it is a follower and has voted
    in it for nobody but the candidate whose request this is. -/
structure World.Converged (w : World n C) (a : Action n C) (w' : World n C) (i : Fin n) (t : Nat) : Prop where
  term : t ≤ (w'.rf i).currentTerm
  follower : (w.rf i).currentTerm < t → (w'.rf i).state = .follower
  vote : (w.rf i).currentTerm < t →
    ((w'.rf i).votedFor = -1 ∧ ∀ c log, .voted i t c log ∉ w'.events) ∨
    ∃ k d, a = .requestVote k ∧ w.cluster.voteCalls[k]? = some d ∧ (w'.rf i).votedFor = d.args.candidateID ∧
      ∀ c log, .voted i t c log ∈ w'.events → c = d.args.candidateID

namespace World

variable {w w' : World n C} {a : Action n C}

theorem Converged.of_le {i : Fin n} {t : Nat} (hle : t ≤ (w.rf i).currentTerm)
    (hup : (w.rf i).currentTerm ≤ (w'.rf i).currentTerm) : w.Converged a w' i t where
  term := Nat.le_trans hle hup
  follower hlt := absurd hle (Nat.not_le.mpr hlt)
  vote hlt := absurd hle (Nat.not_le.mpr hlt)

/-- A server that catches up with a message and does not vote. -/
theorem Converged.of_catchUp {i : Fin n} {t : Nat} (h : w.Reached) (hs : w.step a = some w')
    (hle : (w.rf i).currentTerm ≤ t) (hrf : w'.rf i = (w.rf i).catchUp t)
    (hvote : ∀ c log, ¬ EventStep w.cluster a w'.cluster (.voted i t c log)) : w.Converged a w' i t := by
  refine ⟨?_, fun hlt => ?_, fun hlt => Or.inl ⟨?_, fun c log hv => hvote c log (h.new_vote hs hv hlt)⟩⟩
  · rw [hrf, Raft.catchUp_currentTerm hle]
  · rw [hrf, Raft.catchUp_of_lt hlt, Raft.persist_state]
  · rw [hrf, Raft.catchUp_of_lt hlt, Raft.persist_votedFor]

theorem Reached.requestVote_converged (h : w.Reached) (hlog : w.cluster.LogsShaped) {k : Nat}
    (hs : w.step (.requestVote k) = some w') {c : VoteCall n} (hc : w.cluster.voteCalls[k]? = some c) :
    w.Converged (.requestVote k) w' c.server c.args.term := by
  obtain ⟨es, hstep, -⟩ := step_inv hs
  obtain ⟨c', hc', -, -, ⟨hnone, -⟩ | ⟨rf, reply, hv, hw', -⟩⟩ := Step.requestVote_inv hstep <;> rw [hc] at hc' <;>
    cases hc'
  · exact absurd hnone (Raft.requestVote_ne_none (hlog.logs c.server).length_pos c.args)
  have hrf : w'.rf c.server = rf := rf_of_setPeer hw' rfl
  -- A vote of the new term is the one that the handler gives in this step.
  have granted : ∀ c' log, EventStep w.cluster (.requestVote k) w'.cluster (.voted c.server c.args.term c' log) →
      reply.voteGranted = true ∧ c' = c.args.candidateID := by
    intro c' log he
    rcases he.voted_inv with ⟨_, _, ha, -⟩ | ⟨k', d, rf', ha, hd, -, hv', -, rfl, -⟩
    · cases ha
    · cases ha
      rw [hc] at hd
      cases hd
      rw [hv] at hv'
      cases hv'
      exact ⟨rfl, rfl⟩
  have hv : (w.rf c.server).requestVote c.args = some (rf, reply) := hv
  rcases Raft.requestVote_inv hv with ⟨hlt, hsame, -⟩ | ⟨hle, hsame, hr⟩ | ⟨hle, -, -, hsame, -⟩
  · refine Converged.of_le (Nat.le_of_lt hlt) ?_
    rw [hrf, hsame]
  · refine Converged.of_catchUp h hs hle (hrf.trans hsame) fun c' log he => ?_
    have hg := (granted c' log he).1
    rw [hr] at hg
    cases hg
  · refine ⟨?_, fun hlt => ?_, fun hlt => Or.inr ⟨k, c, rfl, hc, ?_, fun c' log hv' => ?_⟩⟩
    · rw [hrf, hsame, Raft.vote_currentTerm, Raft.catchUp_currentTerm hle]
    · rw [hrf, hsame, Raft.vote_state, Raft.catchUp_of_lt hlt, Raft.persist_state]
    · rw [hrf, hsame, Raft.vote_votedFor]
    · exact (granted c' log (h.new_vote hs hv' hlt)).2

theorem Reached.appendEntriesTerm_converged (h : w.Reached) {k : Nat} (hs : w.step (.appendEntriesTerm k) = some w')
    {c : AppendCall n C} (hc : w.cluster.appendCalls[k]? = some c) :
    w.Converged (.appendEntriesTerm k) w' c.server c.args.term := by
  obtain ⟨es, hstep, -⟩ := step_inv hs
  obtain ⟨c', rf, hc', -, -, -, hcases⟩ := Step.appendEntriesTerm_inv hstep
  rw [hc] at hc'
  cases hc'
  have hrf : w'.rf c.server = rf ∧ ∃ reply, (w.rf c.server).appendEntriesTerm c.args = (rf, reply) := by
    rcases hcases with ⟨reply, ht, hw'⟩ | ⟨ht, hw'⟩ <;>
      exact ⟨rf_of_setPeer hw' rfl, _, ht⟩
  obtain ⟨hrf, reply, ht⟩ := hrf
  rcases Raft.appendEntriesTerm_inv ht with ⟨hlt, hsame, -⟩ | ⟨hle, hsame, -⟩
  · refine Converged.of_le (Nat.le_of_lt hlt) ?_
    rw [hrf, hsame]
  · refine Converged.of_catchUp h hs hle (hrf.trans hsame) fun c' log he => ?_
    rcases he.voted_inv with ⟨_, _, ha, -⟩ | ⟨_, _, _, ha, -⟩ <;> cases ha

/-- A reply that its handler drops leaves the server in its term, so the term of the message counts only if the server
    had reached it. -/
theorem Converged.le_of_dropped {i : Fin n} {t : Nat} (h : w.Converged a w' i t) (hrf : w'.rf i = w.rf i) :
    t ≤ (w.rf i).currentTerm := by
  have hterm := h.term
  rwa [hrf] at hterm

/-- A candidate that accepts a message of its term stays one. -/
theorem candidate_stays {k : Nat} (hs : w.step (.appendEntriesLog k) = some w') {c : AppendCall n C}
    (hc : w.cluster.appendCalls[k]? = some c) : (w'.rf c.server).state = (w.rf c.server).state := by
  obtain ⟨es, hstep, -⟩ := step_inv hs
  obtain ⟨c', rf, reply, hc', -, -, hl, hw', -⟩ := Step.appendEntriesLog_inv hstep
  rw [hc] at hc'
  cases hc'
  have hrf : w'.rf c.server = rf := rf_of_setPeer hw' rfl
  rw [hrf]
  rcases (Raft.appendEntriesLog_inv hl).2 with ⟨-, rfl⟩ | ⟨-, -, ⟨-, rfl⟩ | ⟨-, rfl⟩⟩
  · rfl
  · rfl
  · exact Raft.accept_state _ _

/-- The handlers of replies drop a reply of another term than its request. -/
theorem sendRequestVote_dropped {k : Nat} (hs : w.step (.sendRequestVote k) = some w') {c : VoteCall n}
    (hc : w.cluster.voteCalls[k]? = some c) {reply : RequestVoteReply} (hr : c.reply = some reply)
    (hterm : reply.term ≠ c.args.term) : w'.rf c.caller = w.rf c.caller := by
  obtain ⟨es, hstep, -⟩ := step_inv hs
  obtain ⟨c', reply', hc', hst, -, -, -, hw'⟩ := Step.sendRequestVote_inv hstep
  rw [hc] at hc'
  cases hc'
  rw [Call.reply_of_replied hst] at hr
  cases hr
  rw [rf_of_setPeer hw' rfl]
  exact if_pos hterm

theorem sendAppendEntries_dropped {k : Nat} (hs : w.step (.sendAppendEntries k) = some w') {c : AppendCall n C}
    (hc : w.cluster.appendCalls[k]? = some c) {reply : AppendEntriesReply} (hr : c.reply = some reply)
    (hterm : reply.term ≠ c.args.term) : w'.rf c.caller = w.rf c.caller := by
  obtain ⟨es, hstep, -⟩ := step_inv hs
  obtain ⟨c', reply', hc', hst, -, -, -, hw'⟩ := Step.sendAppendEntries_inv hstep
  rw [hc] at hc'
  cases hc'
  rw [Call.reply_of_replied hst] at hr
  cases hr
  rw [rf_of_setPeer hw' rfl]
  exact if_pos (Ne.symm hterm)

/-- What the code guarantees where the condition holds. -/
theorem Reachable.converges {P : Cluster n C → Action n C → Prop} (hw : Reachable P w)
    (hg : Guard.Converges w.cluster a) (hs : w.step a = some w') {i : Fin n} {t : Nat}
    (hm : a.message w.cluster = some (i, t)) : w.Converged a w' i t := by
  obtain ⟨es, hstep, -⟩ := step_inv hs
  have h := hw.reached
  have hup := step_term_le hw.durable hstep i
  cases a with
  | requestVote k =>
    obtain ⟨c, hc, heq⟩ := Option.map_eq_some_iff.mp hm
    cases heq
    exact h.requestVote_converged hw.logsShaped hs hc
  | sendRequestVote k =>
    obtain ⟨c, hc, hreply⟩ := Option.bind_eq_some_iff.mp hm
    obtain ⟨reply, hr, heq⟩ := Option.map_eq_some_iff.mp hreply
    cases heq
    refine .of_le ?_ hup
    by_cases hterm : reply.term = c.args.term
    · rw [hterm]
      exact (h.asked.calls c (List.mem_of_getElem? hc)).2
    · exact hg.voteReply c hc reply hr hterm
  | appendEntriesTerm k =>
    obtain ⟨c, hc, heq⟩ := Option.map_eq_some_iff.mp hm
    cases heq
    exact h.appendEntriesTerm_converged hs hc
  | appendEntriesLog k =>
    obtain ⟨c, hc, heq⟩ := Option.map_eq_some_iff.mp hm
    cases heq
    obtain ⟨c', _, _, hc', -, hst, -⟩ := Step.appendEntriesLog_inv hstep
    rw [hc] at hc'
    cases hc'
    exact .of_le ((hw.logsShaped.handling c (List.mem_of_getElem? hc) _ hst).2 rfl) hup
  | sendAppendEntries k =>
    obtain ⟨c, hc, hreply⟩ := Option.bind_eq_some_iff.mp hm
    obtain ⟨reply, hr, heq⟩ := Option.map_eq_some_iff.mp hreply
    cases heq
    refine .of_le ?_ hup
    by_cases hterm : reply.term = c.args.term
    · rw [hterm]
      exact h.appends c (List.mem_of_getElem? hc)
    · exact hg.entriesReply c hc reply hr hterm
  | _ => cases hm

end World

/-- For every message that a server processes in a step from any reachable state, the condition says exactly when this
    holds: afterwards the term of the server is at least that of the message, and if that was new to it, it is a
    follower and has voted in it for nobody but the candidate it just granted; and a candidate that accepts an
    `AppendEntries` of its own term is a follower afterwards. -/
theorem term_and_role_converge {w w' : World n C} (hw : World.Reachable World.Any w) {a : Action n C}
    (hs : w.step a = some w') {i : Fin n} {t : Nat} (hm : a.message w.cluster = some (i, t)) :
    (w.Converged a w' i t ∧ ∀ c ∈ a.entriesRequest w.cluster, (w.rf c.server).CandidateAccepts c.args →
      (w'.rf c.server).state = .follower) ↔ Guard.Converges w.cluster a := by
  constructor
  · rintro ⟨hconv, haccept⟩
    refine ⟨fun c hc reply hr hterm => ?_, fun c hc reply hr hterm => ?_, fun c hc hcand => ?_⟩
    · cases a with
      | sendRequestVote k =>
        have hc : w.cluster.voteCalls[k]? = some c := hc
        dsimp only [Action.message] at hm
        rw [hc, Option.bind_some, hr] at hm
        cases hm
        exact hconv.le_of_dropped (World.sendRequestVote_dropped hs hc hr hterm)
      | _ => cases hc
    · cases a with
      | sendAppendEntries k =>
        have hc : w.cluster.appendCalls[k]? = some c := hc
        dsimp only [Action.message] at hm
        rw [hc, Option.bind_some, hr] at hm
        cases hm
        exact hconv.le_of_dropped (World.sendAppendEntries_dropped hs hc hr hterm)
      | _ => cases hc
    · have hfollower := haccept c hc hcand
      cases a with
      | appendEntriesLog k =>
        have hstays := World.candidate_stays hs hc
        rw [hfollower] at hstays
        exact absurd (hstays.trans hcand.1) (by simp)
      | _ => cases hc
  · exact fun hg => ⟨hw.converges hg hs hm, fun c hc hcand => absurd hcand (hg.notCandidate c hc)⟩

/-- Server 0 stands for term 1. -/
def stands : List (Action 3 Nat) := [.startElectionTimer 0, .candidate 0]

theorem term_and_role_converge_request : ∃ w w' : World 3 Nat, (w.rf 1).currentTerm = 0 ∧
    w.step (.requestVote 0) = some w' ∧ 1 ≤ (w'.rf 1).currentTerm ∧ (w'.rf 1).state = .follower := by
  obtain ⟨w, hw, h⟩ := World.exec_any World.Any (World.init 3 Nat) stands
    (fun w => (w.step (.requestVote 0)).any fun (_ : World 3 Nat) =>
      decide ((w.rf 1).currentTerm = 0 ∧ Guard.Converges w.cluster (.requestVote 0) ∧
        (Action.requestVote 0 : Action 3 Nat).message w.cluster = some (1, 1))) (by decide)
  obtain ⟨w', hs, h⟩ := (Option.any_eq_true _ _).mp h
  obtain ⟨hterm, hg, hm⟩ := of_decide_eq_true h
  obtain ⟨hconv, -⟩ := (term_and_role_converge (World.exec_steps hw) hs hm).mpr hg
  exact ⟨w, w', hterm, hs, hconv.term, hconv.follower (by rw [hterm]; decide)⟩

/-- Server 1 is in term 2 when it refuses the request of server 0. -/
def refusedByHigher : List (Action 3 Nat) :=
  stands ++ [.startElectionTimer 1, .candidate 1, .startElectionTimer 1, .candidate 1, .requestVote 0]

/-- Servers 0 and 2 stand for term 1; server 0 wins and sends a heartbeat. -/
def heartbeatToCandidate : List (Action 3 Nat) :=
  stands ++ [.startElectionTimer 2, .candidate 2, .requestVote 0, .sendRequestVote 0, .poll 0 0, .leader 0,
    .startHeartBeat 0]

/-- A candidate takes up a reply of term 2 and stays in term 1, and a candidate accepts an `AppendEntries` of its own
    term and stays a candidate. -/
theorem convergence_fails :
    (∃ w w' : World 3 Nat, World.Reachable World.Any w ∧ w.step (.sendRequestVote 0) = some w' ∧
      (Action.sendRequestVote 0 : Action 3 Nat).message w.cluster = some (0, 2) ∧ (w'.rf 0).currentTerm = 1 ∧
      (w'.rf 0).state = .candidate) ∧
    ∃ w w₁ w₂ : World 3 Nat, World.Reachable World.Any w ∧ w.step (.appendEntriesTerm 1) = some w₁ ∧
      w₁.step (.appendEntriesLog 1) = some w₂ ∧
      (Action.appendEntriesTerm 1 : Action 3 Nat).message w.cluster = some (2, 1) ∧
      (w.rf 2).state = .candidate ∧ (w.rf 2).currentTerm = 1 ∧
      (∃ c, w₂.cluster.appendCalls[1]? = some c ∧ c.reply = some { term := 1, success := true }) ∧
      (w₂.rf 2).state = .candidate := by
  constructor
  · obtain ⟨w, hw, h⟩ := World.exec_any World.Any (World.init 3 Nat) refusedByHigher
      (fun w => (w.step (.sendRequestVote 0)).any fun (w' : World 3 Nat) =>
        decide ((Action.sendRequestVote 0 : Action 3 Nat).message w.cluster = some (0, 2) ∧
          (w'.rf 0).currentTerm = 1 ∧ (w'.rf 0).state = .candidate)) (by decide)
    obtain ⟨w', hs, h⟩ := (Option.any_eq_true _ _).mp h
    exact ⟨w, w', World.exec_steps hw, hs, of_decide_eq_true h⟩
  · obtain ⟨w, hw, h⟩ := World.exec_any World.Any (World.init 3 Nat) heartbeatToCandidate
      (fun w => (w.step (.appendEntriesTerm 1)).any fun (w₁ : World 3 Nat) =>
        (w₁.step (.appendEntriesLog 1)).any fun (w₂ : World 3 Nat) =>
          ((w₂.cluster.appendCalls[1]?).any fun (c : AppendCall 3 Nat) =>
            decide (c.reply = some { term := 1, success := true })) &&
          decide ((Action.appendEntriesTerm 1 : Action 3 Nat).message w.cluster = some (2, 1) ∧
            (w.rf 2).state = .candidate ∧ (w.rf 2).currentTerm = 1 ∧ (w₂.rf 2).state = .candidate)) (by decide)
    obtain ⟨w₁, hs₁, h⟩ := (Option.any_eq_true _ _).mp h
    obtain ⟨w₂, hs₂, h⟩ := (Option.any_eq_true _ _).mp h
    obtain ⟨hc, h⟩ := Bool.and_eq_true_iff.mp h
    obtain ⟨c, hc, hr⟩ := (Option.any_eq_true _ _).mp hc
    obtain ⟨hm, hcand, hterm, hafter⟩ := of_decide_eq_true h
    exact ⟨w, w₁, w₂, World.exec_steps hw, hs₁, hs₂, hm, hcand, hterm, ⟨c, hc, of_decide_eq_true hr⟩, hafter⟩

end DistributedLabs
