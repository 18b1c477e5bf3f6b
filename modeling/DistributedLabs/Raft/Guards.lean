import DistributedLabs.Raft.World

/-! Conditions on a step and the state before it. Each names a point where the sections of `raft.go` do
    not check what the protocol needs there: a run whose steps all meet a condition never passes that
    point in the wrong state. -/

namespace DistributedLabs

variable {n : Nat} {C : Type}

/-! ### What an action takes up -/

/-- The reply that a caller may take up. -/
def Call.reply {Args Reply : Type} (c : Call n Args Reply) : Option Reply :=
  match c.stage with
  | .replied reply => some reply
  | _ => none

theorem Call.reply_of_replied {Args Reply : Type} {c : Call n Args Reply} {reply : Reply} (h : c.stage = .replied reply) :
    c.reply = some reply := by
  unfold Call.reply
  rw [h]

namespace Action

variable (s : Cluster n C)

/-- The vote request that the action handles. -/
def voteRequest : Action n C → Option (VoteCall n)
  | .requestVote k => s.voteCalls[k]?
  | _ => none

/-- The vote call whose reply the action takes up. -/
def voteReply : Action n C → Option (VoteCall n)
  | .sendRequestVote k => s.voteCalls[k]?
  | _ => none

/-- The message whose entries the action handles: the second section of `AppendEntries`. -/
def entriesRequest : Action n C → Option (AppendCall n C)
  | .appendEntriesLog k => s.appendCalls[k]?
  | _ => none

/-- The `AppendEntries` call whose reply the action takes up. -/
def entriesReply : Action n C → Option (AppendCall n C)
  | .sendAppendEntries k => s.appendCalls[k]?
  | _ => none

/-- The server that starts an election. -/
def stands : Action n C → Option (Fin n)
  | .candidate i => some i
  | _ => none

/-- The server that begins `leader()`. -/
def installed : Action n C → Option (Fin n)
  | .leader i => some i
  | _ => none

/-- The server whose leader loop runs a round. -/
def loops : Action n C → Option (Fin n)
  | .leaderLoop i => some i
  | _ => none

/-- The server that crashes. -/
def crashed : Action n C → Option (Fin n)
  | .crash i => some i
  | _ => none

end Action

/-! ### The conditions -/

instance (args : RequestVoteArgs n) (log : List (Log C)) : Decidable (Raft.UpToDate args log) :=
  decidable_of_iff (∃ lastLog ∈ log.getLast?, lastLog.term < args.lastLogTerm ∨
    (lastLog.term = args.lastLogTerm ∧ log.length - 1 ≤ args.lastLogIndex)) Iff.rfl

/-- Nobody can ask server `i` for a vote of `term` any more: every server has reached the term, and the requests for
    it have been handled. -/
def Cluster.TermClosed (s : Cluster n C) (i : Fin n) (term : Nat) : Prop :=
  (∀ j, term ≤ (s.peers j).rf.currentTerm) ∧
    ∀ c ∈ s.voteCalls, c.server = i → c.args.term = term → c.stage ≠ .sent

instance (s : Cluster n C) (i : Fin n) (term : Nat) : Decidable (s.TermClosed i term) :=
  inferInstanceAs (Decidable (_ ∧ ∀ c ∈ s.voteCalls, _))

namespace Guard

variable (s : Cluster n C) (a : Action n C)

/-- No crash. -/
def NoCrash : Prop := a.crashed = none

/-- A leader, whose `votedFor` was cleared, is not asked for a vote in the term it leads by a candidate
    that is up to date. -/
def LeaderNotAsked : Prop :=
  ∀ c ∈ a.voteRequest s, (s.peers c.server).rf.state = .leader →
    c.args.term = (s.peers c.server).rf.currentTerm → ¬ Raft.UpToDate c.args (s.peers c.server).rf.log

/-- A server crashes with no vote on disk only if it has given none in its term, that is, if it holds no vote and does
    not lead, or if nobody can ask it for a vote of that term any more. -/
def VoteOnDisk : Prop :=
  ∀ i ∈ a.crashed, ∀ rf ∈ Raft.make i (s.peers i).rf.persister, rf.votedFor = -1 →
    ((s.peers i).rf.votedFor = -1 ∧ (s.peers i).rf.state ≠ .leader) ∨ s.TermClosed i (s.peers i).rf.currentTerm

/-- A candidate counts a vote only in the term it was asked for in. -/
def VoteCountedInTerm : Prop :=
  ∀ c ∈ a.voteReply s, ∀ reply ∈ c.reply, reply.voteGranted = true →
    (s.peers c.caller).rf.state = .candidate → c.args.term = (s.peers c.caller).rf.currentTerm

/-- When `leader()` begins, the server is not a follower and still counts a majority. -/
def MajorityAtInstall : Prop :=
  ∀ i ∈ a.installed, (s.peers i).rf.state ≠ .follower ∧ n / 2 < (s.peers i).rf.voteCount

/-- A leader loop left over from an earlier term finds nothing to send while the server is a candidate: every
    `nextIndex` has reached the end of the log. -/
def LoopSilent : Prop :=
  ∀ i ∈ a.loops, (s.peers i).rf.state = .candidate → ∀ p, (s.peers i).rf.log.length ≤ (s.peers i).rf.nextIndex p

/-- Nor does it find anything to commit. -/
def LoopIdle : Prop :=
  LoopSilent s a ∧ ∀ i ∈ a.loops, (s.peers i).rf.state = .candidate →
    (s.peers i).rf.commit.commitIndex = (s.peers i).rf.commitIndex

/-- A leader raises `matchIndex` only by a reply of the term it is in. -/
def MatchInTerm : Prop :=
  ∀ c ∈ a.entriesReply s, ∀ reply ∈ c.reply, reply.success = true → (s.peers c.caller).rf.state = .leader →
    (s.peers c.caller).rf.matchIndex c.server < c.args.prevLogIndex + c.args.entries.length →
    c.args.term = (s.peers c.caller).rf.currentTerm

/-- The term has not risen between the two sections of an `AppendEntries` whose entries are taken over. -/
def AcceptInTerm : Prop :=
  ∀ c ∈ a.entriesRequest s, c.args.entries ≠ [] → (s.peers c.server).rf.Consistent c.args →
    c.args.term = (s.peers c.server).rf.currentTerm

instance : Decidable (NoCrash a) := inferInstanceAs (Decidable (_ = none))

instance : Decidable (LeaderNotAsked s a) := inferInstanceAs (Decidable (∀ c ∈ a.voteRequest s, _))

instance : Decidable (VoteOnDisk s a) := inferInstanceAs (Decidable (∀ i ∈ a.crashed, _))

instance : Decidable (VoteCountedInTerm s a) := inferInstanceAs (Decidable (∀ c ∈ a.voteReply s, _))

instance : Decidable (MajorityAtInstall s a) := inferInstanceAs (Decidable (∀ i ∈ a.installed, _))

instance : Decidable (LoopSilent s a) := inferInstanceAs (Decidable (∀ i ∈ a.loops, _))

instance : Decidable (LoopIdle s a) := inferInstanceAs (Decidable (LoopSilent s a ∧ ∀ i ∈ a.loops, _))

instance : Decidable (MatchInTerm s a) := inferInstanceAs (Decidable (∀ c ∈ a.entriesReply s, _))

instance : Decidable (AcceptInTerm s a) := inferInstanceAs (Decidable (∀ c ∈ a.entriesRequest s, _))

end Guard

end DistributedLabs
