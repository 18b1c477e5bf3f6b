import DistributedLabs.Raft.Server
import Mathlib.Tactic.Simps.Basic

/-! A cluster of peers. A step is one critical section of one goroutine, run at any moment at which the
    goroutine exists. RPC calls stand in two tables; a request or a reply that is never taken up is lost,
    and the order in which calls are taken up is free. A crash is followed by a restart through `Make`. -/

namespace DistributedLabs

variable {n : Nat} {C : Type}

/-! ### Calls and goroutines -/

/-- How far a call has come. `handling` is an `AppendEntries` between its two sections, in the callee's
    incarnation `epoch`; `returned` keeps the reply that the caller took up. -/
inductive Stage (Reply : Type) where
  | sent
  | handling (epoch : Nat)
  | replied (reply : Reply)
  | returned (reply : Reply)
  deriving DecidableEq, Repr

/-- A goroutine in `sendRequestVote` or `sendAppendEntries`, started by incarnation `epoch` of `caller`. -/
structure Call (n : Nat) (Args Reply : Type) where
  caller : Fin n
  epoch : Nat
  server : Fin n
  args : Args
  stage : Stage Reply
  deriving DecidableEq, Repr

abbrev VoteCall (n : Nat) := Call n (RequestVoteArgs n) RequestVoteReply

abbrev AppendCall (n : Nat) (C : Type) := Call n (AppendEntriesArgs n C) AppendEntriesReply

/-- An incarnation of a peer with its goroutines: the running election timers, the calls of `candidate()`
    and `leader()` that have not begun, the waiting candidates with their local `term`, and the leader and
    heartbeat loops. After a panic none of them runs. -/
structure Peer (n : Nat) (C : Type) where
  rf : Raft n C
  epoch : Nat
  panicked : Bool
  timers : Nat
  candidates : Nat
  polling : List Nat
  starting : Nat
  leaders : Nat
  heartbeats : Nat

structure Cluster (n : Nat) (C : Type) where
  peers : Fin n → Peer n C
  voteCalls : List (VoteCall n)
  appendCalls : List (AppendCall n C)

/-- The goroutines that `Make` starts: `follower()` leaves one election timer. The applier always runs. -/
def Peer.boot (rf : Raft n C) (epoch : Nat) : Peer n C where
  rf := rf
  epoch := epoch
  panicked := false
  timers := 1
  candidates := 0
  polling := []
  starting := 0
  leaders := 0
  heartbeats := 0

/-! What a section does to the goroutines of its peer, one definition per way the sections end. -/

namespace Peer

@[simps]
def panic (p : Peer n C) : Peer n C := { p with panicked := true }

@[simps]
def withRf (p : Peer n C) (rf : Raft n C) : Peer n C := { p with rf }

/-- `go rf.candidate()`, and the timer returns. -/
@[simps]
def fire (p : Peer n C) : Peer n C := { p with timers := p.timers - 1, candidates := p.candidates + 1 }

/-- `candidate()` starts the next timer and enters its loop with the local `term`. -/
@[simps]
def stand (p : Peer n C) (rf : Raft n C) (term : Nat) : Peer n C :=
  { p with rf, candidates := p.candidates - 1, timers := p.timers + 1, polling := p.polling ++ [term] }

/-- The `k`-th waiting candidate starts `leader()`. -/
@[simps]
def win (p : Peer n C) (k : Nat) : Peer n C :=
  { p with polling := p.polling.eraseIdx k, starting := p.starting + 1 }

/-- The `k`-th waiting candidate starts `follower()`. -/
@[simps]
def follow (p : Peer n C) (k : Nat) : Peer n C :=
  { p with polling := p.polling.eraseIdx k, timers := p.timers + 1 }

/-- The `k`-th waiting candidate gives up. -/
@[simps]
def giveUp (p : Peer n C) (k : Nat) : Peer n C := { p with polling := p.polling.eraseIdx k }

/-- A call of `leader()` begins: it starts the heartbeats and enters its loop. -/
@[simps]
def lead (p : Peer n C) : Peer n C :=
  { p with
    rf := p.rf.leader
    starting := p.starting - 1
    leaders := p.leaders + 1
    heartbeats := p.heartbeats + 1 }

/-- A leader loop ends as `follower()`. -/
@[simps]
def retire (p : Peer n C) : Peer n C := { p with leaders := p.leaders - 1, timers := p.timers + 1 }

/-- A heartbeat loop ends. -/
@[simps]
def quiet (p : Peer n C) : Peer n C := { p with heartbeats := p.heartbeats - 1 }

end Peer

/-- Every peer has just been made, with an empty persister. -/
def Cluster.init (n : Nat) (C : Type) : Cluster n C where
  peers := fun i => Peer.boot (Raft.fresh i makePersister) 0
  voteCalls := []
  appendCalls := []

/-! ### Actions and events -/

/-- One critical section. Calls are named by their position in their table, waiting candidates by their
    position in the peer's list. -/
inductive Action (n : Nat) (C : Type) where
  | startElectionTimer (i : Fin n)
  | candidate (i : Fin n)
  | poll (i : Fin n) (k : Nat)
  | leader (i : Fin n)
  | leaderLoop (i : Fin n)
  | startHeartBeat (i : Fin n)
  | start (i : Fin n) (command : Option C)
  | requestVote (k : Nat)
  | sendRequestVote (k : Nat)
  | appendEntriesTerm (k : Nat)
  | appendEntriesLog (k : Nat)
  | sendAppendEntries (k : Nat)
  | applier (i : Fin n)
  | crash (i : Fin n)
  deriving DecidableEq, Repr

/-- What a step makes known. `acted` names the server of every step; `spoke` is a `Start` that was
    accepted or a section that built `AppendEntries` messages, with the speaker's log after it; `accepted` is an
    `AppendEntries` that succeeded in the term of the message. -/
inductive Event (n : Nat) (C : Type) where
  | acted (i : Fin n) (a : Action n C)
  | stood (i : Fin n) (term : Nat) (log : List (Log C))
  | voted (i : Fin n) (term : Nat) (candidate : Fin n) (log : List (Log C))
  | spoke (i : Fin n) (term : Nat) (log : List (Log C))
  | accepted (i : Fin n) (term length : Nat)
  | committed (i : Fin n) (term index : Nat)
  | applied (i : Fin n) (msg : ApplyMsg C)
  deriving DecidableEq, Repr

namespace Cluster

def setPeer (s : Cluster n C) (i : Fin n) (p : Peer n C) : Cluster n C :=
  { s with peers := fun j => if j = i then p else s.peers j }

/-- A panic stops every goroutine of the process. -/
def panic (s : Cluster n C) (i : Fin n) : Cluster n C :=
  s.setPeer i (s.peers i).panic

def setVoteStage (s : Cluster n C) (k : Nat) (c : VoteCall n) (stage : Stage RequestVoteReply) : Cluster n C :=
  { s with voteCalls := s.voteCalls.set k { c with stage } }

def setAppendStage (s : Cluster n C) (k : Nat) (c : AppendCall n C) (stage : Stage AppendEntriesReply) :
    Cluster n C :=
  { s with appendCalls := s.appendCalls.set k { c with stage } }

/-- `go rf.sendRequestVote(j, …)` for every other peer. -/
def callVotes (s : Cluster n C) (i : Fin n) (args : RequestVoteArgs n) : Cluster n C :=
  { s with
    voteCalls := s.voteCalls ++ ((List.finRange n).filter (· ≠ i)).map fun j => ⟨i, (s.peers i).epoch, j, args, .sent⟩ }

/-- `go rf.sendAppendEntries(j, …)` for the given peers. -/
def callAppends (s : Cluster n C) (i : Fin n) (calls : List (Fin n × AppendEntriesArgs n C)) : Cluster n C :=
  { s with appendCalls := s.appendCalls ++ calls.map fun c => ⟨i, (s.peers i).epoch, c.1, c.2, .sent⟩ }

end Cluster

/-- The state after a step and the events of the step; `none` when the step is not possible. -/
abbrev Outcome (n : Nat) (C : Type) := Option (Cluster n C × List (Event n C))

namespace Step

variable (s : Cluster n C)

/-- The election timer fires: `go rf.candidate()`. -/
def startElectionTimer (i : Fin n) : Outcome n C :=
  if (s.peers i).panicked ∨ (s.peers i).timers = 0 then none
  else some (s.setPeer i (s.peers i).fire, [])

def candidate (i : Fin n) : Outcome n C :=
  if (s.peers i).panicked ∨ (s.peers i).candidates = 0 then none
  else match (s.peers i).rf.candidate with
    | none => some (s.panic i, [])
    | some (rf, args) =>
      some ((s.setPeer i ((s.peers i).stand rf args.term)).callVotes i args,
        [.stood i args.term rf.log, .voted i args.term i rf.log])

def poll (i : Fin n) (k : Nat) : Outcome n C :=
  match (s.peers i).polling[k]? with
  | none => none
  | some term =>
    if (s.peers i).panicked then none
    else match (s.peers i).rf.poll term with
      | .wins => some (s.setPeer i ((s.peers i).win k), [])
      | .follows => some (s.setPeer i ((s.peers i).follow k), [])
      | .superseded => some (s.setPeer i ((s.peers i).giveUp k), [])
      | .waits => some (s, [])

def leader (i : Fin n) : Outcome n C :=
  if (s.peers i).panicked ∨ (s.peers i).starting = 0 then none
  else some (s.setPeer i (s.peers i).lead, [])

/-- The event of a round of the leader loop that built messages. -/
def spokeEvents (rf : Raft n C) (i : Fin n) (calls : List (Fin n × AppendEntriesArgs n C)) : List (Event n C) :=
  if calls.isEmpty then [] else [.spoke i rf.currentTerm rf.log]

/-- The event of a round of the leader loop that moved `commitIndex`. -/
def committedEvents (rf : Raft n C) (i : Fin n) (commitIndex : Nat) : List (Event n C) :=
  if commitIndex = rf.commitIndex then [] else [.committed i rf.currentTerm commitIndex]

/-- One round of the loop of `leader()`: it ends as a follower, or replicates and then commits. -/
def leaderLoop (i : Fin n) : Outcome n C :=
  if (s.peers i).panicked ∨ (s.peers i).leaders = 0 then none
  else if (s.peers i).rf.state = .follower then some (s.setPeer i (s.peers i).retire, [])
  else match (s.peers i).rf.replicate (List.finRange n) with
    | (calls, true) =>
      some ((s.setPeer i ((s.peers i).withRf (s.peers i).rf.commit)).callAppends i calls,
        spokeEvents (s.peers i).rf i calls ++ committedEvents (s.peers i).rf i (s.peers i).rf.commit.commitIndex)
    | (calls, false) => some ((s.panic i).callAppends i calls, spokeEvents (s.peers i).rf i calls)

def startHeartBeat (i : Fin n) : Outcome n C :=
  if (s.peers i).panicked ∨ (s.peers i).heartbeats = 0 then none
  else if (s.peers i).rf.state ≠ .leader then some (s.setPeer i (s.peers i).quiet, [])
  else match (s.peers i).rf.startHeartBeat with
    | none => some (s.panic i, [])
    | some args =>
      some (s.callAppends i (((List.finRange n).filter (· ≠ i)).map fun j => (j, args)),
        [.spoke i (s.peers i).rf.currentTerm (s.peers i).rf.log])

def start (i : Fin n) (command : Option C) : Outcome n C :=
  if (s.peers i).panicked then none
  else match (s.peers i).rf.start command with
    | (rf, _, term, isLeader) =>
      some (s.setPeer i ((s.peers i).withRf rf), if isLeader then [.spoke i term rf.log] else [])

/-- A request is taken up by whatever incarnation of the callee runs at that moment. -/
def requestVote (k : Nat) : Outcome n C :=
  match s.voteCalls[k]? with
  | none => none
  | some c =>
    if (s.peers c.server).panicked ∨ c.stage ≠ .sent then none
    else match (s.peers c.server).rf.requestVote c.args with
      | none => some ((s.panic c.server).setVoteStage k c (.handling (s.peers c.server).epoch), [])
      | some (rf, reply) =>
        some ((s.setPeer c.server ((s.peers c.server).withRf rf)).setVoteStage k c (.replied reply),
          if reply.voteGranted then
            [.voted c.server reply.term c.args.candidateID (s.peers c.server).rf.log] else [])

/-- A reply reaches only the incarnation that made the call. -/
def sendRequestVote (k : Nat) : Outcome n C :=
  match s.voteCalls[k]? with
  | none => none
  | some c =>
    match c.stage with
    | .replied reply =>
      if (s.peers c.caller).panicked ∨ (s.peers c.caller).epoch ≠ c.epoch then none
      else some ((s.setPeer c.caller ((s.peers c.caller).withRf
        ((s.peers c.caller).rf.sendRequestVote c.args reply))).setVoteStage k c (.returned reply), [])
    | _ => none

def appendEntriesTerm (k : Nat) : Outcome n C :=
  match s.appendCalls[k]? with
  | none => none
  | some c =>
    if (s.peers c.server).panicked ∨ c.stage ≠ .sent then none
    else match (s.peers c.server).rf.appendEntriesTerm c.args with
      | (rf, some reply) =>
        some ((s.setPeer c.server ((s.peers c.server).withRf rf)).setAppendStage k c (.replied reply), [])
      | (rf, none) =>
        some ((s.setPeer c.server ((s.peers c.server).withRf rf)).setAppendStage k c
          (.handling (s.peers c.server).epoch), [])

/-- The handler goes on only in the incarnation that began it. -/
def appendEntriesLog (k : Nat) : Outcome n C :=
  match s.appendCalls[k]? with
  | none => none
  | some c =>
    if (s.peers c.server).panicked ∨ c.stage ≠ .handling (s.peers c.server).epoch then none
    else match (s.peers c.server).rf.appendEntriesLog c.args with
      | (rf, reply) =>
        some ((s.setPeer c.server ((s.peers c.server).withRf rf)).setAppendStage k c (.replied reply),
          if reply.success ∧ reply.term = c.args.term then
            [.accepted c.server reply.term (c.args.prevLogIndex + c.args.entries.length + 1)] else [])

def sendAppendEntries (k : Nat) : Outcome n C :=
  match s.appendCalls[k]? with
  | none => none
  | some c =>
    match c.stage with
    | .replied reply =>
      if (s.peers c.caller).panicked ∨ (s.peers c.caller).epoch ≠ c.epoch then none
      else some ((s.setPeer c.caller ((s.peers c.caller).withRf
        ((s.peers c.caller).rf.sendAppendEntries c.server c.args reply))).setAppendStage k c (.returned reply), [])
    | _ => none

/-- The applier sends every entry up to `commitIndex` while it holds the lock. -/
def applier (i : Fin n) : Outcome n C :=
  if (s.peers i).panicked ∨ (s.peers i).rf.commitIndex ≤ (s.peers i).rf.lastApplied then none
  else match (s.peers i).rf.apply with
    | (rf, msgs, true) => some (s.setPeer i ((s.peers i).withRf rf), msgs.map (.applied i))
    | (_, msgs, false) => some (s.panic i, msgs.map (.applied i))

/-- A crash and the restart of the peer from its persister. -/
def crash (i : Fin n) : Outcome n C :=
  match Raft.make i (s.peers i).rf.persister with
  | none => none
  | some rf => some (s.setPeer i (Peer.boot rf ((s.peers i).epoch + 1)), [])

end Step

/-- The server whose goroutine an action runs; `none` when the action names no call. -/
def Action.server (s : Cluster n C) : Action n C → Option (Fin n)
  | .startElectionTimer i | .candidate i | .poll i _ | .leader i | .leaderLoop i | .startHeartBeat i
  | .start i _ | .applier i | .crash i => some i
  | .requestVote k => (s.voteCalls[k]?).map Call.server
  | .sendRequestVote k => (s.voteCalls[k]?).map Call.caller
  | .appendEntriesTerm k | .appendEntriesLog k => (s.appendCalls[k]?).map Call.server
  | .sendAppendEntries k => (s.appendCalls[k]?).map Call.caller

def step (s : Cluster n C) : Action n C → Outcome n C
  | .startElectionTimer i => Step.startElectionTimer s i
  | .candidate i => Step.candidate s i
  | .poll i k => Step.poll s i k
  | .leader i => Step.leader s i
  | .leaderLoop i => Step.leaderLoop s i
  | .startHeartBeat i => Step.startHeartBeat s i
  | .start i command => Step.start s i command
  | .requestVote k => Step.requestVote s k
  | .sendRequestVote k => Step.sendRequestVote s k
  | .appendEntriesTerm k => Step.appendEntriesTerm s k
  | .appendEntriesLog k => Step.appendEntriesLog s k
  | .sendAppendEntries k => Step.sendAppendEntries s k
  | .applier i => Step.applier s i
  | .crash i => Step.crash s i

end DistributedLabs
