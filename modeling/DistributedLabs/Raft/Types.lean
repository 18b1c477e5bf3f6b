import Mathlib.Data.List.Basic

/-! Data of a Raft peer: log entries, the persister and the messages of the two RPCs (`raft/raft.go`,
    `raft/persister.go`). Terms and indices are `Nat`; `votedFor` stays an `Int`, whose `-1` is "nobody". -/

namespace DistributedLabs

/-- The constants `LEADER`, `CANDIDATE` and `FOLLOWER`. -/
inductive PeerState where
  | leader
  | candidate
  | follower
  deriving DecidableEq, Repr

/-- A log entry. An `interface{}` is `nil` or a value of the service's command type. -/
structure Log (C : Type) where
  term : Nat
  command : Option C
  deriving DecidableEq, Repr

/-- What a committed entry is reported as on `applyCh`. -/
structure ApplyMsg (C : Type) where
  commandValid : Bool
  command : Option C
  commandIndex : Nat
  deriving DecidableEq, Repr

/-! ### Stable storage -/

/-- One value of a gob stream: `persist` writes two integers and a log. -/
inductive GobValue (C : Type) where
  | int (v : Int)
  | logs (v : List (Log C))
  deriving DecidableEq, Repr

/-- The bytes that `SaveRaftState` keeps, as the sequence of values encoded in them. -/
structure Persister (C : Type) where
  raftstate : List (GobValue C)
  deriving DecidableEq, Repr

def makePersister {C : Type} : Persister C := ⟨[]⟩

/-- `Decode` into an `int`: the next value of the stream, or an error that leaves the rest behind it. -/
def decodeInt {C : Type} : List (GobValue C) → Option Int × List (GobValue C)
  | [] => (none, [])
  | .int v :: rest => (some v, rest)
  | .logs _ :: rest => (none, rest)

/-- `Decode` into a `[]Log`. -/
def decodeLogs {C : Type} : List (GobValue C) → Option (List (Log C)) × List (GobValue C)
  | [] => (none, [])
  | .int _ :: rest => (none, rest)
  | .logs v :: rest => (some v, rest)

/-- The three decodes of one round of the loop in `readPersist`, each tried only after the one before. -/
def decodeState {C : Type} (stream : List (GobValue C)) :
    Option (Int × Int × List (Log C)) × List (GobValue C) :=
  match decodeInt stream with
  | (none, rest) => (none, rest)
  | (some currentTerm, rest) =>
    match decodeInt rest with
    | (none, rest) => (none, rest)
    | (some votedFor, rest) =>
      match decodeLogs rest with
      | (none, rest) => (none, rest)
      | (some log, rest) => (some (currentTerm, votedFor, log), rest)

/-- The retry loop of `readPersist`: a failed round is tried again on what is left of the stream, and
    the loop panics when its tries are used up. -/
def decodeLoop {C : Type} : Nat → List (GobValue C) → Option (Int × Int × List (Log C))
  | 0, _ => none
  | tries + 1, stream =>
    match decodeState stream with
    | (some v, _) => some v
    | (none, rest) => decodeLoop tries rest

/-! ### Messages -/

structure RequestVoteArgs (n : Nat) where
  term : Nat
  candidateID : Fin n
  lastLogIndex : Nat
  lastLogTerm : Nat
  deriving DecidableEq, Repr

structure RequestVoteReply where
  term : Nat
  voteGranted : Bool
  deriving DecidableEq, Repr

structure AppendEntriesArgs (n : Nat) (C : Type) where
  term : Nat
  leaderID : Fin n
  prevLogIndex : Nat
  prevLogTerm : Nat
  entries : List (Log C)
  leaderCommit : Nat
  deriving DecidableEq, Repr

/-- Fields that a handler does not set keep the zero value of Go. -/
structure AppendEntriesReply where
  term : Nat
  success : Bool
  conflictTerm : Nat := 0
  conflictIndex : Nat := 0
  logLen : Nat := 0
  deriving DecidableEq, Repr

/-- A peer, with the fields that its critical sections read or write. The election timer's
    `electionTimeout` and `lastHeard` are left out: a timer may fire at any moment. -/
structure Raft (n : Nat) (C : Type) where
  me : Fin n
  persister : Persister C
  state : PeerState
  currentTerm : Nat
  votedFor : Int
  log : List (Log C)
  commitIndex : Nat
  lastApplied : Nat
  nextIndex : Fin n → Nat
  matchIndex : Fin n → Nat
  voteCount : Nat

end DistributedLabs
