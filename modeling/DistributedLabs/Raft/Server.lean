import DistributedLabs.Raft.Types
import Mathlib.Data.List.FinRange
import Mathlib.Tactic.Simps.Basic

/-! The critical sections of a peer (`raft/raft.go`), as functions of the peer's fields. Each function is
    what one `Lock` … `Unlock` of the source computes; a section that can index out of range returns an
    `Option`, whose `none` is the panic. -/

namespace DistributedLabs

variable {n : Nat} {C : Type}

namespace Raft

/-! ### Persistence -/

/-- `persist`: encode `currentTerm`, `votedFor` and `log`, in this order, and save them. -/
@[simps]
def persist (rf : Raft n C) : Raft n C :=
  { rf with persister := ⟨[.int rf.currentTerm, .int rf.votedFor, .logs rf.log]⟩ }

/-- `readPersist`: nothing saved leaves the peer as it is; otherwise the loop tries six rounds. -/
def readPersist (rf : Raft n C) (data : List (GobValue C)) : Option (Raft n C) :=
  if data = [] then some rf
  else match decodeLoop 6 data with
    | none => none
    | some (currentTerm, votedFor, log) => some { rf with currentTerm := currentTerm.toNat, votedFor, log }

/-- The peer as `Make` builds it before `readPersist`. Index 0 holds a fake entry of term 0. -/
def fresh (me : Fin n) (persister : Persister C) : Raft n C where
  me := me
  persister := persister
  state := .follower
  currentTerm := 0
  votedFor := -1
  log := [⟨0, none⟩]
  commitIndex := 0
  lastApplied := 0
  nextIndex := fun _ => 0
  matchIndex := fun _ => 0
  voteCount := 0

/-- `Make`, up to the goroutines it starts. -/
def make (me : Fin n) (persister : Persister C) : Option (Raft n C) :=
  (fresh me persister).readPersist persister.raftstate

/-! ### Elections -/

/-- The fields that `candidate()` writes. -/
@[simps!]
def stand (rf : Raft n C) : Raft n C :=
  let rf := { rf with currentTerm := rf.currentTerm + 1, state := .candidate, votedFor := rf.me }
  { rf.persist with voteCount := 1 }

/-- First section of `candidate()`, with the arguments of its `RequestVote` calls. -/
def candidate (rf : Raft n C) : Option (Raft n C × RequestVoteArgs n) :=
  let rf := rf.stand
  match rf.log.getLast? with
  | none => none
  | some lastLog => some (rf, ⟨rf.currentTerm, rf.me, rf.log.length - 1, lastLog.term⟩)

/-- What one round of the busy-waiting loop of `candidate()` decides. -/
inductive Poll where
  | wins
  | follows
  | superseded
  | waits
  deriving DecidableEq, Repr

/-- One round of the loop, for a `candidate()` whose local `term` is given. -/
def poll (rf : Raft n C) (term : Nat) : Poll :=
  if n / 2 < rf.voteCount then .wins
  else if rf.state = .follower then .follows
  else if term < rf.currentTerm then .superseded
  else .waits

/-- The second rule in "Rules for Servers", which both handlers follow before anything else. -/
def catchUp (rf : Raft n C) (term : Nat) : Raft n C :=
  if rf.currentTerm < term then { rf with currentTerm := term, state := .follower, votedFor := -1 }.persist
  else rf

/-- What both reply handlers do with a higher term in a reply. -/
@[simps!]
def stepDown (rf : Raft n C) (term : Nat) : Raft n C :=
  { { rf with currentTerm := term }.persist with state := .follower }

/-- The vote of the handler, which it does not persist. -/
@[simps]
def vote (rf : Raft n C) (candidateID : Fin n) : Raft n C := { rf with votedFor := candidateID }

/-- The handler `RequestVote`. -/
def requestVote (rf : Raft n C) (args : RequestVoteArgs n) : Option (Raft n C × RequestVoteReply) :=
  if args.term < rf.currentTerm then some (rf, ⟨rf.currentTerm, false⟩)
  else
    let rf := rf.catchUp args.term
    if rf.votedFor ≠ -1 then some (rf, ⟨rf.currentTerm, false⟩)
    else match rf.log.getLast? with
      | none => none
      | some lastLog =>
        if args.lastLogTerm < lastLog.term ∨
            (args.lastLogTerm = lastLog.term ∧ args.lastLogIndex < rf.log.length - 1) then
          some (rf, ⟨rf.currentTerm, false⟩)
        else some (rf.vote args.candidateID, ⟨rf.currentTerm, true⟩)

/-- A granted vote is counted. -/
@[simps]
def countVote (rf : Raft n C) : Raft n C := { rf with voteCount := rf.voteCount + 1 }

/-- The section of `sendRequestVote` after a reply arrived. -/
def sendRequestVote (rf : Raft n C) (args : RequestVoteArgs n) (reply : RequestVoteReply) : Raft n C :=
  if reply.term ≠ args.term then rf
  else if rf.currentTerm < reply.term then rf.stepDown reply.term
  else if reply.voteGranted then rf.countVote
  else rf

/-! ### The leader -/

/-- First section of `leader()`. -/
@[simps]
def leader (rf : Raft n C) : Raft n C :=
  { rf with
    state := .leader
    votedFor := -1
    nextIndex := fun _ => rf.log.length
    matchIndex := fun _ => 0 }

/-- The section of `startHeartBeat`: the arguments sent to every other peer. -/
def startHeartBeat (rf : Raft n C) : Option (AppendEntriesArgs n C) :=
  match rf.log.getLast? with
  | none => none
  | some lastLog => some ⟨rf.currentTerm, rf.me, rf.log.length - 1, lastLog.term, [], rf.commitIndex⟩

/-- The arguments built for a peer whose `nextIndex` is given. -/
def replicationArgs (rf : Raft n C) : Nat → Option (AppendEntriesArgs n C)
  | 0 => none
  | prev + 1 =>
    match rf.log[prev]? with
    | none => none
    | some prevLog => some ⟨rf.currentTerm, rf.me, prev, prevLog.term, rf.log.drop (prev + 1), rf.commitIndex⟩

/-- The replication loop over `nextIndex`: the calls it starts, and whether it ran to its end. A panic
    keeps the calls started before it. -/
def replicate (rf : Raft n C) : List (Fin n) → List (Fin n × AppendEntriesArgs n C) × Bool
  | [] => ([], true)
  | server :: servers =>
    if rf.nextIndex server < rf.log.length then
      match rf.replicationArgs (rf.nextIndex server) with
      | none => ([], false)
      | some args => ((server, args) :: (rf.replicate servers).1, (rf.replicate servers).2)
    else rf.replicate servers

/-- The number of peers whose `matchIndex` reaches `index`. -/
def matchNum (rf : Raft n C) (index : Nat) : Nat :=
  (List.finRange n).countP fun server => index ≤ rf.matchIndex server

/-- The commit loop, from index `m` downwards: the `commitIndex` it leaves. -/
def commitLoop (rf : Raft n C) : Nat → Nat
  | 0 => rf.commitIndex
  | m + 1 =>
    if m + 1 ≤ rf.commitIndex then rf.commitIndex
    else if (rf.log[m + 1]?).map Log.term = some rf.currentTerm ∧ n / 2 < rf.matchNum (m + 1) then m + 1
    else rf.commitLoop m

/-- One run of the commit loop, from the last index. -/
@[simps]
def commit (rf : Raft n C) : Raft n C := { rf with commitIndex := rf.commitLoop (rf.log.length - 1) }

/-- The entry that an accepted `Start` appends. -/
@[simps!]
def appendCommand (rf : Raft n C) (command : Option C) : Raft n C :=
  persist { rf with log := rf.log ++ [⟨rf.currentTerm, command⟩] }

/-- `Start`: the peer and the three results `(index, term, isLeader)`. -/
def start (rf : Raft n C) (command : Option C) : Raft n C × Nat × Nat × Bool :=
  if rf.state ≠ .leader then (rf, rf.log.length, rf.currentTerm, false)
  else
    let rf := rf.appendCommand command
    (rf, rf.log.length - 1, rf.currentTerm, true)

/-! ### Replication -/

/-- First section of `AppendEntries`: a reply that ends the call, or `none` when it goes on. -/
def appendEntriesTerm (rf : Raft n C) (args : AppendEntriesArgs n C) : Raft n C × Option AppendEntriesReply :=
  if args.term < rf.currentTerm then (rf, some { term := rf.currentTerm, success := false })
  else (rf.catchUp args.term, none)

/-- The loop that looks for the first index of the conflicting term, downwards from index `i`. -/
def conflictIndex (log : List (Log C)) (conflictTerm : Nat) : Nat → Nat
  | 0 => 0
  | i + 1 => if (log[i]?).map Log.term = some conflictTerm then conflictIndex log conflictTerm i else i + 1

/-- The loop over `args.Entries` that looks for an entry the log lacks or holds with another term, from
    the entry at position `i` on. -/
def conflictEntry (log : List (Log C)) (prevLogIndex : Nat) : Nat → List (Log C) → Option Nat
  | _, [] => none
  | i, entry :: entries =>
    if (log[prevLogIndex + i + 1]?).map Log.term = some entry.term then conflictEntry log prevLogIndex (i + 1) entries
    else some i

/-- The log after the entries of an accepted message: truncated at the conflict and extended. -/
def acceptEntries (log : List (Log C)) (prevLogIndex : Nat) (entries : List (Log C)) : List (Log C) :=
  match conflictEntry log prevLogIndex 0 entries with
  | none => log
  | some i => log.take (prevLogIndex + i + 1) ++ entries.drop i

/-- What the second section of `AppendEntries` does with the entries of a message that it accepts. -/
def accept (rf : Raft n C) (args : AppendEntriesArgs n C) : Raft n C :=
  let rf := { rf with log := acceptEntries rf.log args.prevLogIndex args.entries }.persist
  if rf.commitIndex < args.leaderCommit then
    { rf with commitIndex := min args.leaderCommit (args.prevLogIndex + args.entries.length) }
  else rf

/-- Second section of `AppendEntries`, after `resetTimer`. -/
def appendEntriesLog (rf : Raft n C) (args : AppendEntriesArgs n C) : Raft n C × AppendEntriesReply :=
  match rf.log[args.prevLogIndex]? with
  | none => (rf, { term := rf.currentTerm, success := false, logLen := rf.log.length - 1 })
  | some prevLog =>
    if prevLog.term ≠ args.prevLogTerm then
      (rf, {
        term := rf.currentTerm
        success := false
        conflictTerm := prevLog.term
        conflictIndex := conflictIndex rf.log prevLog.term args.prevLogIndex })
    else
      let reply : AppendEntriesReply := { term := rf.currentTerm, success := true }
      if args.entries = [] then (rf, reply)
      else (rf.accept args, reply)

/-- `AppendEntries` when nothing comes between its two sections. -/
def appendEntries (rf : Raft n C) (args : AppendEntriesArgs n C) : Raft n C × AppendEntriesReply :=
  match rf.appendEntriesTerm args with
  | (rf, some reply) => (rf, reply)
  | (rf, none) => rf.appendEntriesLog args

/-- The loop that looks for the last entry of the conflicting term, downwards from index `i`. -/
def lastOfTerm (log : List (Log C)) (conflictTerm : Nat) : Nat → Option Nat
  | 0 => none
  | i + 1 => if (log[i + 1]?).map Log.term = some conflictTerm then some (i + 1) else lastOfTerm log conflictTerm i

/-- Write one cell of `nextIndex` or `matchIndex`. -/
def setIndex (f : Fin n → Nat) (server : Fin n) (v : Nat) : Fin n → Nat :=
  fun p => if p = server then v else f p

/-- A peer holds the entries up to `index`. -/
@[simps]
def recordMatch (rf : Raft n C) (server : Fin n) (index : Nat) : Raft n C :=
  { rf with
    matchIndex := setIndex rf.matchIndex server index
    nextIndex := setIndex rf.nextIndex server (index + 1) }

/-- Replication to a peer goes on from `index`. -/
@[simps]
def moveNext (rf : Raft n C) (server : Fin n) (index : Nat) : Raft n C :=
  { rf with nextIndex := setIndex rf.nextIndex server index }

/-- The section of `sendAppendEntries` after a reply arrived. -/
def sendAppendEntries (rf : Raft n C) (server : Fin n) (args : AppendEntriesArgs n C)
    (reply : AppendEntriesReply) : Raft n C :=
  if args.term ≠ reply.term then rf
  else if rf.currentTerm < reply.term then rf.stepDown reply.term
  else if reply.success then rf.recordMatch server (args.prevLogIndex + args.entries.length)
  else if reply.conflictIndex = 0 then rf.moveNext server reply.logLen
  else match lastOfTerm rf.log reply.conflictTerm (rf.log.length - 1) with
    | some i => rf.moveNext server (i + 1)
    | none => rf.moveNext server reply.conflictIndex

/-! ### The applier -/

/-- The inner loop of `applier`, for `k` more entries: the messages sent and whether it ran to its end. -/
def applyLoop (log : List (Log C)) (lastApplied : Nat) : Nat → List (ApplyMsg C) × Bool
  | 0 => ([], true)
  | k + 1 =>
    match log[lastApplied + 1]? with
    | none => ([], false)
    | some entry =>
      let rest := applyLoop log (lastApplied + 1) k
      (⟨true, entry.command, lastApplied + 1⟩ :: rest.1, rest.2)

/-- The section of `applier`: the peer, the messages sent and whether it ran to its end. -/
def apply (rf : Raft n C) : Raft n C × List (ApplyMsg C) × Bool :=
  ({ rf with lastApplied := rf.commitIndex }, applyLoop rf.log rf.lastApplied (rf.commitIndex - rf.lastApplied))

end Raft

end DistributedLabs
