import DistributedLabs.Lib.LinkedList
import DistributedLabs.Porcupine.Bitset
import Mathlib.Logic.Function.Basic

/-! The linearizability checker (`porcupine/checker.go`) for the history of one partition. Nodes live in a heap and are
    named by their positions; a nil pointer is `none`, and so is the result of a function that panics. Values are the
    inputs `I` and outputs `O` that the model's own type assertions expect. -/

namespace DistributedLabs.Porcupine

open LinkedList

variable {I O S : Type}

/-! ### Histories and models (`porcupine/model.go`) -/

/-- `ret` is `Return`. -/
structure Operation (I O : Type) where
  clientId : Int
  input : I
  call : Int
  output : O
  ret : Int
  deriving DecidableEq, Repr

inductive EventKind where
  | callEvent
  | returnEvent
  deriving DecidableEq, Repr

structure Event (I O : Type) where
  clientId : Int
  kind : EventKind
  value : I ⊕ O
  id : Int
  deriving DecidableEq, Repr

structure Model (I O S : Type) where
  partition : Option (List (Operation I O) → List (List (Operation I O)))
  partitionEvent : Option (List (Event I O) → List (List (Event I O)))
  init : S
  step : S → I → O → Bool × S
  equal : Option (S → S → Bool)

def noPartition (history : List (Operation I O)) : List (List (Operation I O)) := [history]

def noPartitionEvent (history : List (Event I O)) : List (List (Event I O)) := [history]

def shallowEqual [DecidableEq S] (state1 state2 : S) : Bool := decide (state1 = state2)

/-- A model whose functions are all there. -/
structure Filled (I O S : Type) where
  partition : List (Operation I O) → List (List (Operation I O))
  partitionEvent : List (Event I O) → List (List (Event I O))
  init : S
  step : S → I → O → Bool × S
  equal : S → S → Bool

def fillDefault [DecidableEq S] (model : Model I O S) : Filled I O S where
  partition := model.partition.getD noPartition
  partitionEvent := model.partitionEvent.getD noPartitionEvent
  init := model.init
  step := model.step
  equal := model.equal.getD shallowEqual

/-! ### Entries -/

inductive EntryKind where
  | callEntry
  | returnEntry
  deriving DecidableEq, Repr

structure Entry (I O : Type) where
  kind : EntryKind
  value : I ⊕ O
  id : Int
  time : Int
  clientId : Int
  deriving DecidableEq, Repr

/-- The two entries of each operation; `id` counts the operations. -/
def appendEntries : Int → List (Operation I O) → List (Entry I O)
  | _, [] => []
  | id, elem :: history =>
    ⟨.callEntry, .inl elem.input, id, elem.call, elem.clientId⟩ ::
      ⟨.returnEntry, .inr elem.output, id, elem.ret, elem.clientId⟩ :: appendEntries (id + 1) history

/-- `sort.Sort` is not stable, so the order of entries with equal times depends on `sort`. -/
def makeEntries (sort : List (Entry I O) → List (Entry I O)) (history : List (Operation I O)) : List (Entry I O) :=
  sort (appendEntries 0 history)

/-- The loop of `renumber`; `m` is the renumbering so far and `id` the next number. -/
def renumberFrom (m : Int → Option Int) (id : Int) : List (Event I O) → List (Event I O)
  | [] => []
  | v :: events =>
    match m v.id with
    | some r => { v with id := r } :: renumberFrom m id events
    | none => { v with id := id } :: renumberFrom (Function.update m v.id (some id)) (id + 1) events

def renumber (events : List (Event I O)) : List (Event I O) := renumberFrom (fun _ => none) 0 events

/-- The index is used as the time. -/
def convertEntries (events : List (Event I O)) : List (Entry I O) :=
  events.zipIdx.map fun x =>
    ⟨if x.1.kind = .returnEvent then .returnEntry else .callEntry, x.1.value, x.1.id, x.2, x.1.clientId⟩

/-! ### The linked list -/

/-- What a node holds besides its pointers `next` and `prev`. It is a call if `matched`, which is `match`, is not nil. -/
structure Node (I O : Type) where
  value : Option (I ⊕ O)
  matched : Option Nat
  id : Int
  deriving DecidableEq, Repr

abbrev Heap (I O : Type) := List (Cell (Node I O))

/-- `&node{...}`; the new node is the last one of the heap. -/
def alloc (h : Heap I O) (d : Node I O) : Heap I O := h ++ [⟨d, none, none⟩]

def node (h : Heap I O) (p : Nat) : Option (Node I O) := (h[p]?).map Cell.data

def insertBefore (h : Heap I O) (n : Nat) (mark : Option Nat) : Heap I O :=
  match mark with
  | none => h
  | some mark =>
    let beforeMark := prev h mark
    let h := setPrev h mark (some n)
    let h := setNext h n (some mark)
    match beforeMark with
    | none => h
    | some beforeMark => setNext (setPrev h n (some beforeMark)) beforeMark (some n)

/-- The nodes from `n` on; a list has no more of them than the heap, which bounds the loop. -/
def length (h : Heap I O) : Nat → Option Nat → Nat
  | 0, _ => 0
  | _ + 1, none => 0
  | bound + 1, some n => length h bound (next h n) + 1

/-- The variables of `makeLinkedEntries`; `returns` is the map `match`. -/
structure Linking (I O : Type) where
  heap : Heap I O
  root : Option Nat
  returns : Int → Option Nat

def linkEntry (elem : Entry I O) (l : Linking I O) : Linking I O :=
  let entry := l.heap.length
  match elem.kind with
  | .returnEntry =>
    { heap := insertBefore (alloc l.heap ⟨some elem.value, none, elem.id⟩) entry l.root
      root := some entry
      returns := Function.update l.returns elem.id (some entry) }
  | .callEntry =>
    { heap := insertBefore (alloc l.heap ⟨some elem.value, l.returns elem.id, elem.id⟩) entry l.root
      root := some entry
      returns := l.returns }

/-- The loop goes from the last entry to the first one. -/
def makeLinkedEntries (entries : List (Entry I O)) : Linking I O :=
  entries.foldr linkEntry ⟨[], none, fun _ => none⟩

def lift (h : Heap I O) (entry : Nat) : Option (Heap I O) := do
  let before ← prev h entry
  let h := setNext h before (next h entry)
  let after ← next h entry
  let h := setPrev h after (prev h entry)
  let «match» ← (node h entry).bind Node.matched
  let before ← prev h «match»
  let h := setNext h before (next h «match»)
  match next h «match» with
  | none => some h
  | some after => some (setPrev h after (prev h «match»))

def unlift (h : Heap I O) (entry : Nat) : Option (Heap I O) := do
  let «match» ← (node h entry).bind Node.matched
  let before ← prev h «match»
  let h := setNext h before (some «match»)
  let h := match next h «match» with
    | none => h
    | some after => setPrev h after (some «match»)
  let before ← prev h entry
  let h := setNext h before (some entry)
  let after ← next h entry
  some (setPrev h after (some entry))

/-! ### The search -/

structure CacheEntry (S : Type) where
  linearized : Bitset
  state : S

def cacheContains (equal : S → S → Bool) (cache : BitVec 64 → List (CacheEntry S)) (entry : CacheEntry S) : Bool :=
  (cache entry.linearized.hash).any fun elem =>
    entry.linearized.equals elem.linearized && equal entry.state elem.state

structure CallsEntry (S : Type) where
  entry : Nat
  state : S

/-- The variables of `checkSingle`. -/
structure Search (I O S : Type) where
  heap : Heap I O
  headEntry : Nat
  n : Nat
  entry : Option Nat
  state : S
  linearized : Bitset
  cache : BitVec 64 → List (CacheEntry S)
  calls : List (CallsEntry S)
  longest : List (Option (List Int))

/-- What `checkSingle` does before its loop. -/
def startSearch (model : Filled I O S) (history : List (Entry I O)) : Search I O S :=
  let l := makeLinkedEntries history
  let n := length l.heap l.heap.length l.root / 2
  let headEntry := l.heap.length
  { heap := insertBefore (alloc l.heap ⟨none, none, -1⟩) headEntry l.root
    headEntry := headEntry
    n := n
    entry := l.root
    state := model.init
    linearized := newBitset n
    cache := fun _ => []
    calls := []
    longest := List.replicate n none }

/-- `seq[i] = v.entry.id` -/
def seqOf (h : Heap I O) (calls : List (CallsEntry S)) : Option (List Int) :=
  calls.mapM fun v => (node h v.entry).map Node.id

/-- One round of the loop that records the calls as the longest linearizable prefix of an entry. -/
def recordOne (h : Heap I O) (seq : List Int) (longest : List (Option (List Int))) (v : CallsEntry S) :
    Option (List (Option (List Int))) := do
  let e ← node h v.entry
  let i ← e.id.toNat?
  let old ← longest[i]?
  if old.all (fun q => q.length < seq.length) then some (longest.set i (some seq)) else some longest

/-- The record that is made before the last call is put back. -/
def recordLongest (h : Heap I O) (calls : List (CallsEntry S)) (longest : List (Option (List Int))) :
    Option (List (Option (List Int))) := do
  let seq ← seqOf h calls
  calls.foldlM (recordOne h seq) longest

/-- The branch of a call entry `e`. A bit is set in the clone and then in `linearized` itself. -/
def tryCall (model : Filled I O S) (s : Search I O S) (entry : Nat) (e matching : Node I O) : Option (Search I O S) :=
  match e.value, matching.value with
  | some (.inl input), some (.inr output) =>
    let newState := (model.step s.state input output).2
    if (model.step s.state input output).1 then
      match e.id.toNat?.bind s.linearized.set with
      | none => none
      | some newLinearized =>
        if cacheContains model.equal s.cache ⟨newLinearized, newState⟩ then
          some { s with entry := next s.heap entry }
        else
          let hash := newLinearized.hash
          (lift s.heap entry).map fun heap =>
            { s with
              cache := Function.update s.cache hash (s.cache hash ++ [⟨newLinearized, newState⟩])
              calls := s.calls ++ [⟨entry, s.state⟩]
              state := newState
              linearized := newLinearized
              heap := heap
              entry := next heap s.headEntry }
    else some { s with entry := next s.heap entry }
  | _, _ => none

def updateLongest (computePartial : Bool) (s : Search I O S) : Option (List (Option (List Int))) :=
  if computePartial then recordLongest s.heap s.calls s.longest else some s.longest

/-- The branch of a return entry when there is a call to put back. -/
def backtrack (computePartial : Bool) (s : Search I O S) (callsTop : CallsEntry S) : Option (Search I O S) := do
  let longest ← updateLongest computePartial s
  let e ← node s.heap callsTop.entry
  let i ← e.id.toNat?
  let linearized ← s.linearized.clear i
  let heap ← unlift s.heap callsTop.entry
  some { s with
    entry := next heap callsTop.entry
    state := callsTop.state
    linearized := linearized
    calls := s.calls.dropLast
    heap := heap
    longest := longest }

inductive Progress (I O S : Type) where
  | running (s : Search I O S)
  | returned (ok : Bool) (longest : List (Option (List Int)))

/-- One round of the loop of `checkSingle`, with what it reads from `kill`; `longest` has `n` places. -/
def iterate (model : Filled I O S) (computePartial kill : Bool) (s : Search I O S) : Option (Progress I O S) :=
  match next s.heap s.headEntry with
  | none => (seqOf s.heap s.calls).map fun seq => .returned true (s.longest.map fun _ => some seq)
  | some _ =>
    if kill then some (.returned false s.longest)
    else
      match s.entry with
      | none => none
      | some entry =>
        match node s.heap entry with
        | none => none
        | some e =>
          match e.matched with
          | some p => (node s.heap p).bind fun matching => (tryCall model s entry e matching).map .running
          | none =>
            match s.calls.getLast? with
            | none => some (.returned false s.longest)
            | some callsTop => (backtrack computePartial s callsTop).map .running

/-- The loop, for so many rounds, when no one sets `kill`. -/
def runSearch (model : Filled I O S) (computePartial : Bool) : Nat → Search I O S → Option (Progress I O S)
  | 0, s => some (.running s)
  | rounds + 1, s =>
    match iterate model computePartial false s with
    | some (.running s') => runSearch model computePartial rounds s'
    | result => result

def checkSingle (model : Filled I O S) (history : List (Entry I O)) (computePartial : Bool) (rounds : Nat) :
    Option (Progress I O S) :=
  runSearch model computePartial rounds (startSearch model history)

end DistributedLabs.Porcupine
