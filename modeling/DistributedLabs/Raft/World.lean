import DistributedLabs.Lib.Run
import DistributedLabs.Raft.ServerSpec
import DistributedLabs.Raft.StepInv

/-! Runs of a cluster. A world is a cluster together with the events of all steps so far, which no step
    reads; claims about a whole run speak of these events. -/

namespace DistributedLabs

variable {n : Nat} {C : Type}

structure World (n : Nat) (C : Type) where
  cluster : Cluster n C
  events : List (Event n C)

namespace World

def init (n : Nat) (C : Type) : World n C := ⟨Cluster.init n C, []⟩

/-- Server `i` of the cluster. -/
def rf (w : World n C) (i : Fin n) : Raft n C := (w.cluster.peers i).rf

/-- The server that a step has updated. -/
theorem rf_of_setPeer {w : World n C} {s s' : Cluster n C} {i : Fin n} {p : Peer n C} (hw : w.cluster = s')
    (h : s'.peers = (s.setPeer i p).peers) : w.rf i = p.rf := by
  unfold rf
  rw [hw, h, Cluster.setPeer_self]

def step (w : World n C) (a : Action n C) : Option (World n C) :=
  match DistributedLabs.step w.cluster a with
  | none => none
  | some (s, es) => some ⟨s, w.events ++ ((a.server w.cluster).toList.map (.acted · a) ++ es)⟩

theorem step_inv {w w' : World n C} {a : Action n C} (h : w.step a = some w') :
    ∃ es, DistributedLabs.step w.cluster a = some (w'.cluster, es) ∧
      w'.events = w.events ++ ((a.server w.cluster).toList.map (.acted · a) ++ es) := by
  unfold step at h
  split at h
  · cases h
  · rename_i s es hs
    cases h
    exact ⟨es, hs, rfl⟩

/-- A run whose steps all satisfy `P`, of the cluster before the step and the action. -/
def Steps (P : Cluster n C → Action n C → Prop) : World n C → World n C → Prop :=
  Run.Steps step fun w => P w.cluster

/-- `w` is reached from the initial world by steps that all satisfy `P`. -/
def Reachable (P : Cluster n C → Action n C → Prop) (w : World n C) : Prop := Steps P (init n C) w

/-- Any step at all. -/
def Any (_ : Cluster n C) (_ : Action n C) : Prop := True

instance (s : Cluster n C) (a : Action n C) : Decidable (Any s a) := inferInstanceAs (Decidable True)

/-- What every step keeps, a run keeps. -/
theorem Steps.keeps {P : Cluster n C → Action n C → Prop} {I : World n C → Prop} {w w' : World n C}
    (step : ∀ w w' a, I w → P w.cluster a → w.step a = some w' → I w') (hs : Steps P w w') (hw : I w) : I w' :=
  Run.Steps.keeps step hs hw

/-- What every step from a reachable world keeps holds of every reachable world. -/
theorem Reachable.keeps {P : Cluster n C → Action n C → Prop} {I : World n C → Prop} {w : World n C}
    (step : ∀ w w' a, Reachable P w → I w → P w.cluster a → w.step a = some w' → I w') (hw : Reachable P w)
    (hinit : I (init n C)) : I w :=
  Run.Steps.keeps_reached step hw hinit

theorem Steps.events {P : Cluster n C → Action n C → Prop} {w w' : World n C} (hs : Steps P w w') :
    w.events <+: w'.events := by
  refine Steps.keeps (I := fun w' => w.events <+: w'.events) ?_ hs List.prefix_rfl
  intro w₁ w₂ a ih _ hs
  obtain ⟨es, -, he⟩ := step_inv hs
  exact ih.trans (he ▸ List.prefix_append _ _)

/-! ### Concrete runs -/

section Exec
variable (P : Cluster n C → Action n C → Prop) [inst : ∀ s a, Decidable (P s a)]

/-- Run a list of actions, each of which must be possible and satisfy `P`. -/
def exec (w : World n C) (as : List (Action n C)) : Option (World n C) :=
  @Run.exec _ _ step (fun w => P w.cluster) (fun w => inst w.cluster) w as

variable {P} in
theorem exec_steps {as : List (Action n C)} {w w' : World n C} (h : w.exec P as = some w') : Steps P w w' :=
  Run.exec_steps h

/-- A property of the last world of a concrete run, checked by running it. -/
theorem exec_any (w : World n C) (as : List (Action n C)) (p : World n C → Bool)
    (h : (w.exec P as).any p = true) : ∃ w', w.exec P as = some w' ∧ p w' = true :=
  Run.exec_any _ _ w as p h

end Exec

/-- The concrete runs have three servers, named 0, 1 and 2. -/
instance threeServers : @NeZero Nat Zero.ofOfNat0 3 := Nat.instNeZeroSucc

/-- Some have two or five. -/
instance twoServers : @NeZero Nat Zero.ofOfNat0 2 := Nat.instNeZeroSucc

instance fiveServers : @NeZero Nat Zero.ofOfNat0 5 := Nat.instNeZeroSucc

end World

/-! ### What a step does to a server -/

/-- A step changes no server but the one whose goroutine it runs. -/
theorem step_other {s s' : Cluster n C} {a : Action n C} {es : List (Event n C)} (h : step s a = some (s', es)) :
    ∃ i, a.server s = some i ∧ ∀ j, j ≠ i → s'.peers j = s.peers j := by
  have set : ∀ (i : Fin n) (p : Peer n C) (j : Fin n), j ≠ i → (s.setPeer i p).peers j = s.peers j :=
    fun _ p _ hj => s.setPeer_ne p hj
  cases a with
  | startElectionTimer i =>
    obtain ⟨-, -, rfl, -⟩ := Step.startElectionTimer_inv h
    exact ⟨i, rfl, set i _⟩
  | candidate i =>
    obtain ⟨-, -, ⟨-, rfl, -⟩ | ⟨_, _, -, rfl, -⟩⟩ := Step.candidate_inv h <;> exact ⟨i, rfl, set i _⟩
  | poll i k =>
    obtain ⟨_, -, -, -, ⟨-, rfl⟩ | ⟨-, rfl⟩ | ⟨-, rfl⟩ | ⟨-, rfl⟩⟩ := Step.poll_inv h
    · exact ⟨i, rfl, set i _⟩
    · exact ⟨i, rfl, set i _⟩
    · exact ⟨i, rfl, set i _⟩
    · exact ⟨i, rfl, fun _ _ => rfl⟩
  | leader i =>
    obtain ⟨-, -, rfl, -⟩ := Step.leader_inv h
    exact ⟨i, rfl, set i _⟩
  | leaderLoop i =>
    obtain ⟨-, -, ⟨-, rfl, -⟩ | ⟨-, _, -, rfl, -⟩ | ⟨-, _, -, rfl, -⟩⟩ := Step.leaderLoop_inv h <;>
      exact ⟨i, rfl, set i _⟩
  | startHeartBeat i =>
    obtain ⟨-, -, ⟨-, rfl, -⟩ | ⟨-, -, rfl, -⟩ | ⟨-, _, -, rfl, -⟩⟩ := Step.startHeartBeat_inv h
    · exact ⟨i, rfl, set i _⟩
    · exact ⟨i, rfl, set i _⟩
    · exact ⟨i, rfl, fun _ _ => rfl⟩
  | start i command =>
    obtain ⟨-, rfl, -⟩ := Step.start_inv h
    exact ⟨i, rfl, set i _⟩
  | requestVote k =>
    obtain ⟨c, hc, -, -, ⟨-, rfl, -⟩ | ⟨_, _, -, rfl, -⟩⟩ := Step.requestVote_inv h <;>
      exact ⟨c.server, congrArg (Option.map Call.server) hc, set _ _⟩
  | sendRequestVote k =>
    obtain ⟨c, _, hc, -, -, -, -, rfl⟩ := Step.sendRequestVote_inv h
    exact ⟨c.caller, congrArg (Option.map Call.caller) hc, set _ _⟩
  | appendEntriesTerm k =>
    obtain ⟨c, _, hc, -, -, -, ⟨_, -, rfl⟩ | ⟨-, rfl⟩⟩ := Step.appendEntriesTerm_inv h <;>
      exact ⟨c.server, congrArg (Option.map Call.server) hc, set _ _⟩
  | appendEntriesLog k =>
    obtain ⟨c, _, _, hc, -, -, -, rfl, -⟩ := Step.appendEntriesLog_inv h
    exact ⟨c.server, congrArg (Option.map Call.server) hc, set _ _⟩
  | sendAppendEntries k =>
    obtain ⟨c, _, hc, -, -, -, -, rfl⟩ := Step.sendAppendEntries_inv h
    exact ⟨c.caller, congrArg (Option.map Call.caller) hc, set _ _⟩
  | applier i =>
    obtain ⟨-, -, _, _, -, ⟨-, rfl⟩ | ⟨-, rfl⟩⟩ := Step.applier_inv h <;> exact ⟨i, rfl, set i _⟩
  | crash i =>
    obtain ⟨_, -, rfl, -⟩ := Step.crash_inv h
    exact ⟨i, rfl, set i _⟩

/-- The ways in which the fields of server `i` change in a step `a`. The arguments of an `AppendEntries`
    come from a call in the table that is between its sections in this incarnation. -/
inductive RfStep (s : Cluster n C) (a : Action n C) (i : Fin n) : Raft n C → Prop where
  | same : RfStep s a i (s.peers i).rf
  | candidate {rf : Raft n C} {args : RequestVoteArgs n} (h : (s.peers i).rf.candidate = some (rf, args))
      (ha : a = .candidate i) : RfStep s a i rf
  | leader (ha : a = .leader i) : RfStep s a i (s.peers i).rf.leader
  | commit (ha : a = .leaderLoop i) : RfStep s a i (s.peers i).rf.commit
  | start (command : Option C) (ha : a = .start i command) : RfStep s a i ((s.peers i).rf.start command).1
  | requestVote {k : Nat} {c : VoteCall n} {rf : Raft n C} {reply : RequestVoteReply}
      (hc : s.voteCalls[k]? = some c) (hi : c.server = i)
      (h : (s.peers i).rf.requestVote c.args = some (rf, reply)) (ha : a = .requestVote k) : RfStep s a i rf
  | sendRequestVote {k : Nat} {c : VoteCall n} {reply : RequestVoteReply} (hc : s.voteCalls[k]? = some c)
      (hi : c.caller = i) (hst : c.stage = .replied reply) (ha : a = .sendRequestVote k) :
      RfStep s a i ((s.peers i).rf.sendRequestVote c.args reply)
  | appendEntriesTerm {k : Nat} {c : AppendCall n C} {rf : Raft n C} {reply : Option AppendEntriesReply}
      (hc : s.appendCalls[k]? = some c) (hi : c.server = i)
      (h : (s.peers i).rf.appendEntriesTerm c.args = (rf, reply)) (ha : a = .appendEntriesTerm k) : RfStep s a i rf
  | appendEntriesLog {k : Nat} {c : AppendCall n C} {rf : Raft n C} {reply : AppendEntriesReply}
      (hc : s.appendCalls[k]? = some c) (hi : c.server = i) (hst : c.stage = .handling (s.peers i).epoch)
      (h : (s.peers i).rf.appendEntriesLog c.args = (rf, reply)) (ha : a = .appendEntriesLog k) : RfStep s a i rf
  | sendAppendEntries {k : Nat} {c : AppendCall n C} {reply : AppendEntriesReply} (hc : s.appendCalls[k]? = some c)
      (hi : c.caller = i) (hst : c.stage = .replied reply) (ha : a = .sendAppendEntries k) :
      RfStep s a i ((s.peers i).rf.sendAppendEntries c.server c.args reply)
  | apply : RfStep s a i (s.peers i).rf.apply.1
  | crash {rf : Raft n C} (h : Raft.make i (s.peers i).rf.persister = some rf) (ha : a = .crash i) : RfStep s a i rf

/-- What a step does to peer `i`: it leaves it alone, ends in a panic, writes fields, or starts and ends goroutines. -/
inductive PeerMove (s : Cluster n C) (a : Action n C) (i : Fin n) : Peer n C → Prop where
  | same : PeerMove s a i (s.peers i)
  | panic : PeerMove s a i (s.peers i).panic
  | fields {rf : Raft n C} (h : RfStep s a i rf) (hstate : rf.state = .follower ∨ rf.state = (s.peers i).rf.state)
      (hc : a ≠ .crash i) : PeerMove s a i ((s.peers i).withRf rf)
  | fire (ha : a = .startElectionTimer i) (ht : 0 < (s.peers i).timers) : PeerMove s a i (s.peers i).fire
  | stand {rf : Raft n C} {args : RequestVoteArgs n} (h : (s.peers i).rf.candidate = some (rf, args))
      (ha : a = .candidate i) (hk : 0 < (s.peers i).candidates) : PeerMove s a i ((s.peers i).stand rf args.term)
  | win {k term : Nat} (hk : (s.peers i).polling[k]? = some term) (hv : n / 2 < (s.peers i).rf.voteCount) :
      PeerMove s a i ((s.peers i).win k)
  | follow {k term : Nat} (hk : (s.peers i).polling[k]? = some term) (hp : (s.peers i).rf.poll term = .follows)
      (ha : a = .poll i k) : PeerMove s a i ((s.peers i).follow k)
  | giveUp {k : Nat} : PeerMove s a i ((s.peers i).giveUp k)
  | lead (ha : a = .leader i) (hk : 0 < (s.peers i).starting) : PeerMove s a i (s.peers i).lead
  | retire (ha : a = .leaderLoop i) (hf : (s.peers i).rf.state = .follower) (hk : 0 < (s.peers i).leaders) :
      PeerMove s a i (s.peers i).retire
  | quiet : PeerMove s a i (s.peers i).quiet
  | boot {rf : Raft n C} (h : Raft.make i (s.peers i).rf.persister = some rf) (ha : a = .crash i) :
      PeerMove s a i (Peer.boot rf ((s.peers i).epoch + 1))

/-- An updated peer is its new value or as it was. -/
theorem PeerMove.setPeer {s : Cluster n C} {a : Action n C} {i j : Fin n} {p : Peer n C} (h : PeerMove s a i p) :
    PeerMove s a j ((s.setPeer i p).peers j) := by
  by_cases hij : j = i
  · subst hij
    rw [Cluster.setPeer_self]
    exact h
  · rw [Cluster.setPeer_ne s p hij]
    exact .same

theorem step_move {s s' : Cluster n C} {a : Action n C} {es : List (Event n C)} (h : step s a = some (s', es))
    (j : Fin n) : PeerMove s a j (s'.peers j) := by
  have caught : ∀ (i : Fin n) (term : Nat), ((s.peers i).rf.catchUp term).state = .follower ∨
      ((s.peers i).rf.catchUp term).state = (s.peers i).rf.state :=
    fun i term => (Raft.catchUp_state (s.peers i).rf term).imp_right (congrArg Raft.state)
  cases a with
  | startElectionTimer i =>
    obtain ⟨-, ht, rfl, -⟩ := Step.startElectionTimer_inv h
    exact PeerMove.setPeer (.fire rfl ht)
  | candidate i =>
    obtain ⟨-, hk, ⟨-, rfl, -⟩ | ⟨rf, args, hc, rfl, -⟩⟩ := Step.candidate_inv h
    · exact PeerMove.setPeer .panic
    · exact PeerMove.setPeer (.stand hc rfl hk)
  | poll i k =>
    obtain ⟨term, hk, -, -, ⟨hw, rfl⟩ | ⟨hf, rfl⟩ | ⟨-, rfl⟩ | ⟨-, rfl⟩⟩ := Step.poll_inv h
    · exact PeerMove.setPeer (.win hk (Raft.poll_wins.mp hw))
    · exact PeerMove.setPeer (.follow hk hf rfl)
    · exact PeerMove.setPeer .giveUp
    · exact .same
  | leader i =>
    obtain ⟨-, hk, rfl, -⟩ := Step.leader_inv h
    exact PeerMove.setPeer (.lead rfl hk)
  | leaderLoop i =>
    obtain ⟨-, hk, ⟨hf, rfl, -⟩ | ⟨-, _, -, rfl, -⟩ | ⟨-, _, -, rfl, -⟩⟩ := Step.leaderLoop_inv h
    · exact PeerMove.setPeer (.retire rfl hf hk)
    · exact PeerMove.setPeer (.fields (.commit rfl) (Or.inr rfl) nofun)
    · exact PeerMove.setPeer .panic
  | startHeartBeat i =>
    obtain ⟨-, -, ⟨-, rfl, -⟩ | ⟨-, -, rfl, -⟩ | ⟨-, _, -, rfl, -⟩⟩ := Step.startHeartBeat_inv h
    · exact PeerMove.setPeer .quiet
    · exact PeerMove.setPeer .panic
    · exact .same
  | start i command =>
    obtain ⟨-, rfl, -⟩ := Step.start_inv h
    refine PeerMove.setPeer (.fields (.start command rfl) (Or.inr ?_) nofun)
    by_cases hs : (s.peers i).rf.state = .leader
    · rw [Raft.start_of_leader hs]
      rfl
    · rw [Raft.start_of_not_leader hs]
  | requestVote k =>
    obtain ⟨c, hc, -, -, ⟨-, rfl, -⟩ | ⟨rf, reply, hv, rfl, -⟩⟩ := Step.requestVote_inv h
    · exact PeerMove.setPeer .panic
    · refine PeerMove.setPeer (.fields (.requestVote hc rfl hv rfl) ?_ nofun)
      rcases Raft.requestVote_inv hv with ⟨-, rfl, -⟩ | ⟨-, rfl, -⟩ | ⟨-, -, -, rfl, -⟩
      · exact Or.inr rfl
      · exact caught c.server c.args.term
      · exact caught c.server c.args.term
  | sendRequestVote k =>
    obtain ⟨c, reply, hc, hst, -, -, -, rfl⟩ := Step.sendRequestVote_inv h
    refine PeerMove.setPeer (.fields (.sendRequestVote hc rfl hst rfl) ?_ nofun)
    rcases Raft.sendRequestVote_cases (s.peers c.caller).rf c.args reply with h | ⟨-, -, h⟩ | ⟨-, -, -, h⟩ <;> rw [h]
    · exact Or.inr rfl
    · exact Or.inl rfl
    · exact Or.inr rfl
  | appendEntriesTerm k =>
    obtain ⟨c, rf, hc, -, -, -, h⟩ := Step.appendEntriesTerm_inv h
    have hst : ∀ {reply : Option AppendEntriesReply}, (s.peers c.server).rf.appendEntriesTerm c.args = (rf, reply) →
        rf.state = .follower ∨ rf.state = (s.peers c.server).rf.state := by
      intro reply ht
      rcases Raft.appendEntriesTerm_inv ht with ⟨-, rfl, -⟩ | ⟨-, rfl, -⟩
      · exact Or.inr rfl
      · exact caught c.server c.args.term
    rcases h with ⟨reply, ht, rfl⟩ | ⟨ht, rfl⟩
    · exact PeerMove.setPeer (.fields (.appendEntriesTerm hc rfl ht rfl) (hst ht) nofun)
    · exact PeerMove.setPeer (.fields (.appendEntriesTerm hc rfl ht rfl) (hst ht) nofun)
  | appendEntriesLog k =>
    obtain ⟨c, rf, reply, hc, -, hst, hl, rfl, -⟩ := Step.appendEntriesLog_inv h
    refine PeerMove.setPeer (.fields (.appendEntriesLog hc rfl hst hl rfl) (Or.inr ?_) nofun)
    rcases (Raft.appendEntriesLog_inv hl).2 with ⟨-, rfl⟩ | ⟨-, -, ⟨-, rfl⟩ | ⟨-, rfl⟩⟩
    · rfl
    · rfl
    · rw [Raft.accept_state]
  | sendAppendEntries k =>
    obtain ⟨c, reply, hc, hst, -, -, -, rfl⟩ := Step.sendAppendEntries_inv h
    refine PeerMove.setPeer (.fields (.sendAppendEntries hc rfl hst rfl) ?_ nofun)
    rcases Raft.sendAppendEntries_cases (s.peers c.caller).rf c.server c.args reply with
      ⟨-, h⟩ | ⟨-, -, h⟩ | ⟨-, -, -, h⟩ | ⟨-, -, -, h⟩ <;> rw [h]
    · exact Or.inr rfl
    · exact Or.inl rfl
    · exact Or.inr rfl
    · exact Or.inr rfl
  | applier i =>
    obtain ⟨-, -, rf, msgs, -, ⟨ha, rfl⟩ | ⟨ha, rfl⟩⟩ := Step.applier_inv h
    · obtain rfl := congrArg Prod.fst ha
      exact PeerMove.setPeer (.fields .apply (Or.inr rfl) nofun)
    · exact PeerMove.setPeer .panic
  | crash i =>
    obtain ⟨rf, hm, rfl, -⟩ := Step.crash_inv h
    exact PeerMove.setPeer (.boot hm rfl)

theorem step_rf {s s' : Cluster n C} {a : Action n C} {es : List (Event n C)} (h : step s a = some (s', es))
    (j : Fin n) : RfStep s a j (s'.peers j).rf := by
  have hmove := step_move h j
  generalize s'.peers j = p at hmove ⊢
  cases hmove with
  | fields h => exact h
  | stand h ha => exact .candidate h ha
  | lead ha => exact .leader ha
  | boot h ha => exact .crash h ha
  | _ => exact .same

/-- The same by the update that the section comes to. -/
inductive RfWrite (s : Cluster n C) (a : Action n C) (i : Fin n) : Raft n C → Prop where
  | same : RfWrite s a i (s.peers i).rf
  | stand {args : RequestVoteArgs n} (h : (s.peers i).rf.candidate = some ((s.peers i).rf.stand, args))
      (ha : a = .candidate i) : RfWrite s a i (s.peers i).rf.stand
  | leader (ha : a = .leader i) : RfWrite s a i (s.peers i).rf.leader
  | commit (ha : a = .leaderLoop i) : RfWrite s a i (s.peers i).rf.commit
  | append (command : Option C) (hl : (s.peers i).rf.state = .leader) (ha : a = .start i command) :
      RfWrite s a i ((s.peers i).rf.appendCommand command)
  | catchUp {term : Nat} (hle : (s.peers i).rf.currentTerm ≤ term) : RfWrite s a i ((s.peers i).rf.catchUp term)
  | vote {term : Nat} {candidate : Fin n} (hle : (s.peers i).rf.currentTerm ≤ term) :
      RfWrite s a i (((s.peers i).rf.catchUp term).vote candidate)
  | stepDown {term : Nat} (hlt : (s.peers i).rf.currentTerm < term) : RfWrite s a i ((s.peers i).rf.stepDown term)
  | countVote {k : Nat} {c : VoteCall n} {reply : RequestVoteReply} (hc : s.voteCalls[k]? = some c)
      (hi : c.caller = i) (hst : c.stage = .replied reply) (hterm : reply.term = c.args.term)
      (hg : reply.voteGranted = true) (ha : a = .sendRequestVote k) : RfWrite s a i (s.peers i).rf.countVote
  | accept {k : Nat} {c : AppendCall n C} {prevLog : Log C} (hc : s.appendCalls[k]? = some c) (hi : c.server = i)
      (hst : c.stage = .handling (s.peers i).epoch) (hprev : (s.peers i).rf.log[c.args.prevLogIndex]? = some prevLog)
      (hterm : prevLog.term = c.args.prevLogTerm) (ha : a = .appendEntriesLog k) (hne : c.args.entries ≠ []) :
      RfWrite s a i ((s.peers i).rf.accept c.args)
  | recordMatch {k : Nat} {c : AppendCall n C} {reply : AppendEntriesReply} (hc : s.appendCalls[k]? = some c)
      (hi : c.caller = i) (hst : c.stage = .replied reply) (hterm : c.args.term = reply.term)
      (hsucc : reply.success = true) (ha : a = .sendAppendEntries k) :
      RfWrite s a i ((s.peers i).rf.recordMatch c.server (c.args.prevLogIndex + c.args.entries.length))
  | moveNext {server : Fin n} {v : Nat} : RfWrite s a i ((s.peers i).rf.moveNext server v)
  | apply : RfWrite s a i (s.peers i).rf.apply.1
  | crash {rf : Raft n C} (h : Raft.make i (s.peers i).rf.persister = some rf) (ha : a = .crash i) : RfWrite s a i rf

theorem RfStep.write {s : Cluster n C} {a : Action n C} {i : Fin n} {rf : Raft n C} (h : RfStep s a i rf) :
    RfWrite s a i rf := by
  cases h with
  | same => exact .same
  | candidate h ha =>
    obtain ⟨_, -, rfl, -⟩ := Raft.candidate_inv h
    exact .stand h ha
  | leader ha => exact .leader ha
  | commit ha => exact .commit ha
  | start command ha =>
    by_cases hl : (s.peers i).rf.state = .leader
    · rw [Raft.start_of_leader hl]
      exact .append command hl ha
    · rw [Raft.start_of_not_leader hl]
      exact .same
  | requestVote _ _ h =>
    rcases Raft.requestVote_inv h with ⟨-, rfl, -⟩ | ⟨hle, rfl, -⟩ | ⟨hle, -, -, rfl, -⟩
    · exact .same
    · exact .catchUp hle
    · exact .vote hle
  | @sendRequestVote _ c reply hc hi hst ha =>
    rcases Raft.sendRequestVote_cases (s.peers i).rf c.args reply with h | ⟨-, hlt, h⟩ | ⟨hterm, -, hg, h⟩ <;> rw [h]
    · exact .same
    · exact .stepDown hlt
    · exact .countVote hc hi hst hterm hg ha
  | appendEntriesTerm _ _ h =>
    rcases Raft.appendEntriesTerm_inv h with ⟨-, rfl, -⟩ | ⟨hle, rfl, -⟩
    · exact .same
    · exact .catchUp hle
  | appendEntriesLog hc hi hst h ha =>
    rcases (Raft.appendEntriesLog_inv h).2 with ⟨-, rfl⟩ | ⟨-, ⟨_, hprev, hterm⟩, ⟨-, rfl⟩ | ⟨hne, rfl⟩⟩
    · exact .same
    · exact .same
    · exact .accept hc hi hst hprev hterm ha hne
  | @sendAppendEntries _ c reply hc hi hst ha =>
    rcases Raft.sendAppendEntries_cases (s.peers i).rf c.server c.args reply with
      ⟨-, h⟩ | ⟨-, hlt, h⟩ | ⟨hterm, -, hsucc, h⟩ | ⟨-, -, -, h⟩ <;> rw [h]
    · exact .same
    · exact .stepDown hlt
    · exact .recordMatch hc hi hst hterm hsucc ha
    · exact .moveNext
  | apply => exact .apply
  | crash h ha => exact .crash h ha

/-- What a step may do to `nextIndex` and `matchIndex`: only `leader()`, the handler of a reply and a restart write
    them. -/
inductive IndexStep (s : Cluster n C) (a : Action n C) (i : Fin n) (rf : Raft n C) : Prop where
  | kept (hnext : rf.nextIndex = (s.peers i).rf.nextIndex) (hmatch : rf.matchIndex = (s.peers i).rf.matchIndex)
  | installed (ha : a = .leader i) (hrf : rf = (s.peers i).rf.leader)
  | taken {k : Nat} {c : AppendCall n C} {reply : AppendEntriesReply} (ha : a = .sendAppendEntries k)
      (hc : s.appendCalls[k]? = some c) (hi : c.caller = i) (hst : c.stage = .replied reply)
      (hrf : rf = (s.peers i).rf.sendAppendEntries c.server c.args reply)
  | restarted (ha : a = .crash i) (hmake : Raft.make i (s.peers i).rf.persister = some rf)

theorem RfStep.indices {s : Cluster n C} {a : Action n C} {i : Fin n} {rf : Raft n C} (h : RfStep s a i rf) :
    IndexStep s a i rf := by
  have caught : ∀ (term : Nat), IndexStep s a i ((s.peers i).rf.catchUp term) := fun term =>
    .kept (Raft.catchUp_nextIndex _ term) (Raft.catchUp_matchIndex _ term)
  cases h with
  | candidate h =>
    obtain ⟨_, -, rfl, -⟩ := Raft.candidate_inv h
    exact .kept rfl rfl
  | leader ha => exact .installed ha rfl
  | start command =>
    by_cases hl : (s.peers i).rf.state = .leader
    · rw [Raft.start_of_leader hl]
      exact .kept rfl rfl
    · rw [Raft.start_of_not_leader hl]
      exact .kept rfl rfl
  | requestVote _ _ h =>
    rcases Raft.requestVote_inv h with ⟨-, rfl, -⟩ | ⟨-, rfl, -⟩ | ⟨-, -, -, rfl, -⟩
    · exact .kept rfl rfl
    · exact caught _
    · exact .kept (Raft.catchUp_nextIndex _ _) (Raft.catchUp_matchIndex _ _)
  | @sendRequestVote _ c reply =>
    rcases Raft.sendRequestVote_cases (s.peers i).rf c.args reply with h | ⟨-, -, h⟩ | ⟨-, -, -, h⟩ <;> rw [h] <;>
      exact .kept rfl rfl
  | appendEntriesTerm _ _ h =>
    rcases Raft.appendEntriesTerm_inv h with ⟨-, rfl, -⟩ | ⟨-, rfl, -⟩
    · exact .kept rfl rfl
    · exact caught _
  | appendEntriesLog _ _ _ h =>
    rcases (Raft.appendEntriesLog_inv h).2 with ⟨-, rfl⟩ | ⟨-, -, ⟨-, rfl⟩ | ⟨-, rfl⟩⟩
    · exact .kept rfl rfl
    · exact .kept rfl rfl
    · exact .kept (Raft.accept_nextIndex _ _) (Raft.accept_matchIndex _ _)
  | sendAppendEntries hc hi hst ha => exact .taken ha hc hi hst rfl
  | crash h ha => exact .restarted ha h
  | _ => exact .kept rfl rfl

/-- The ways in which the incarnation and the election goroutines of server `i` change in one step. Most
    sections leave the role alone or make the server a follower. -/
inductive PeerStep (s : Cluster n C) (i : Fin n) : Peer n C → Prop where
  | keep {p : Peer n C} (hepoch : p.epoch = (s.peers i).epoch) (hpoll : p.polling = (s.peers i).polling)
      (hstart : p.starting = (s.peers i).starting)
      (hstate : p.rf.state = .follower ∨ p.rf.state = (s.peers i).rf.state) : PeerStep s i p
  | stand {rf : Raft n C} {args : RequestVoteArgs n} (h : (s.peers i).rf.candidate = some (rf, args)) :
      PeerStep s i ((s.peers i).stand rf args.term)
  | win {k term : Nat} (hk : (s.peers i).polling[k]? = some term) (hv : n / 2 < (s.peers i).rf.voteCount) :
      PeerStep s i ((s.peers i).win k)
  | follow {k : Nat} : PeerStep s i ((s.peers i).follow k)
  | giveUp {k : Nat} : PeerStep s i ((s.peers i).giveUp k)
  | lead (hk : 0 < (s.peers i).starting) : PeerStep s i (s.peers i).lead
  | boot {rf : Raft n C} (h : Raft.make i (s.peers i).rf.persister = some rf) :
      PeerStep s i (Peer.boot rf ((s.peers i).epoch + 1))

theorem step_peer {s s' : Cluster n C} {a : Action n C} {es : List (Event n C)} (h : step s a = some (s', es))
    (j : Fin n) : PeerStep s j (s'.peers j) := by
  have hmove := step_move h j
  generalize s'.peers j = p at hmove ⊢
  cases hmove with
  | fields _ hstate => exact .keep rfl rfl rfl hstate
  | stand h => exact .stand h
  | win hk hv => exact .win hk hv
  | follow => exact .follow
  | giveUp => exact .giveUp
  | lead _ hk => exact .lead hk
  | boot h => exact .boot h
  | _ => exact .keep rfl rfl rfl (Or.inr rfl)

/-- The leader loops of a server: only `leader()` adds one. -/
theorem step_leaders {s s' : Cluster n C} {a : Action n C} {es : List (Event n C)} (h : step s a = some (s', es))
    (j : Fin n) : (s'.peers j).leaders ≤ (s.peers j).leaders ∨ (s'.peers j).rf = (s.peers j).rf.leader := by
  have hmove := step_move h j
  generalize s'.peers j = p at hmove ⊢
  cases hmove with
  | lead => exact Or.inr rfl
  | retire => exact Or.inl (Nat.sub_le _ 1)
  | boot => exact Or.inl (Nat.zero_le _)
  | _ => exact Or.inl (Nat.le_refl _)

end DistributedLabs
