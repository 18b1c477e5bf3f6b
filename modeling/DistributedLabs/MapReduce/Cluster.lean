import DistributedLabs.Lib.Delivery
import DistributedLabs.MapReduce.Equivalence
import DistributedLabs.MapReduce.LateReports

/-! The whole of MapReduce: the master with its goroutines, the workers that perform the tasks it hands out, and the
    directory they share. A worker is known by the reply it got; between two replies it only asks. It reads the
    intermediate files one after the other, performs its file operations one by one, reports when its task has
    succeeded, and may crash at any moment. A file is counted in records here and not in bytes: a `Cell` is one JSON
    pair or one line of output, and one `Write` appends one of them. -/

namespace DistributedLabs.MapReduce

open FileSystem Publication

/-- The functions of a plugin, `sort.Sort`, and the input files that can be read. A call of the map function may list
    its pairs in any order, as one that ranges over a Go map does. -/
structure App where
  mapf : String → String → List KeyValue
  reducef : String → List String → String
  sort : SortByKey
  input : String → Option String

/-- How far the worker that got a reply has come: it has not looked at it, has read the intermediate files before
    `next`, publishes the output as the `e`-th execution of the pool, or is through with the reply. -/
inductive Stage where
  | replied
  | gathering (next : Nat) (kva : List KeyValue)
  | publishing (e : Nat)
  | done
  deriving DecidableEq, Repr

/-- The master, the executions of the workers over a directory of files of records, and how far each worker is. -/
structure Cluster where
  job : Job
  pool : Pool Output Cell
  stages : Nat → Stage

/-- Workers report, the master does not. -/
def Job.Action.isReport : Job.Action → Bool
  | .report _ => true
  | _ => false

namespace Cluster

/-- A section of the master; or the worker with the `k`-th reply begins its task, with what the map function lists this
    time, reads the next intermediate file, performs its next file operation, is at the end of its task, or crashes. -/
inductive Action where
  | master (a : Job.Action)
  | perform (k : Nat) (mapRes : List KeyValue)
  | gather (k : Nat)
  | operate (k : Nat)
  | finish (k : Nat)
  | crash (k : Nat)
  deriving DecidableEq, Repr

def init (files : List String) (nReduce now : Nat) : Cluster where
  job := .init files nReduce now
  pool := ⟨FS.empty _ _, []⟩
  stages := fun _ => .replied

@[simps]
def setJob (s : Cluster) (job : Job) : Cluster := { s with job := job }

@[simps]
def setPool (s : Cluster) (pool : Pool Output Cell) : Cluster := { s with pool := pool }

@[simps]
def setStage (s : Cluster) (k : Nat) (stage : Stage) : Cluster :=
  { s with stages := Function.update s.stages k stage }

/-- The worker knows its output and begins to publish it. -/
@[simps]
def publish (s : Cluster) (k : Nat) (outputs : List (Output × List (List Cell))) : Cluster :=
  { s with
    pool := s.pool.start outputs
    stages := Function.update s.stages k (.publishing s.pool.executions.length) }

/-- The task has succeeded, and `HandleResponse` is called. -/
@[simps]
def report (s : Cluster) (k : Nat) (job : Job) : Cluster :=
  { s with job := job, stages := Function.update s.stages k .done }

@[simps]
def crash (s : Cluster) (k e : Nat) (x : Execution Output Cell) : Cluster :=
  { s with pool := s.pool.crash e x, stages := Function.update s.stages k .done }

/-- What `performReduce` writes. -/
def reduced (app : App) (index : Nat) (kva : List KeyValue) : List (Output × List (List Cell)) :=
  reduceOutputs (fun r => [.line r.1 r.2]) index (reduceLoop app.reducef (app.sort.sort kva) 0)

/-- `performMap` up to its first temporary file, or the beginning of `performReduce`. -/
def perform (app : App) (s : Cluster) (k : Nat) (reply : AskReply) (mapRes : List KeyValue) : Option Cluster :=
  match reply.kind with
  | none => none
  | some .reduce => some (s.setStage k (.gathering 0 []))
  | some .map =>
    match app.input reply.file with
    | none => some (s.setStage k .done)
    | some content =>
      if mapRes.Perm (app.mapf reply.file content) then
        match bucketLoop reply.nReduce mapRes (List.replicate reply.nReduce []) with
        | none => some (s.setStage k .done)
        | some kvall => some (s.publish k (mapOutputs (fun kv => [.json kv]) reply.index kvall))
      else none

/-- The loop of `performReduce` over the intermediate files, and what follows it up to the temporary file. -/
def gather (app : App) (s : Cluster) (k : Nat) (reply : AskReply) (next : Nat) (kva : List KeyValue) : Cluster :=
  if next < reply.splite then
    match s.pool.fs.read (.final (.inter next reply.index)) with
    | none => s.setStage k .done
    | some cells => s.setStage k (.gathering (next + 1) (kva ++ decode cells))
  else s.publish k (reduced app reply.index kva)

/-- `performMap` or `performReduce` has removed its temporary files and returns. -/
def finish (s : Cluster) (k : Nat) (x : Execution Output Cell) : Option Cluster :=
  if x.process.todo = [] ∧ x.process.defers = [] then
    if x.process.ok then (s.job.step (.report k)).map (s.report k) else some (s.setStage k .done)
  else none

/-- The state after an action; `none` when it is not possible now. -/
def step (app : App) (s : Cluster) : Action → Option Cluster
  | .master a => if a.isReport then none else (s.job.step a).map s.setJob
  | .perform k mapRes =>
    match s.job.assignments[k]?, s.stages k with
    | some a, .replied => s.perform app k a.reply mapRes
    | _, _ => none
  | .gather k =>
    match s.job.assignments[k]?, s.stages k with
    | some a, .gathering next kva => some (s.gather app k a.reply next kva)
    | _, _ => none
  | .operate k =>
    match s.stages k with
    | .publishing e => (s.pool.step (.step e)).map s.setPool
    | _ => none
  | .finish k =>
    match s.stages k with
    | .publishing e =>
      match s.pool.executions[e]? with
      | none => none
      | some x => s.finish k x
    | _ => none
  | .crash k =>
    match s.job.assignments[k]?, s.stages k with
    | none, _ => none
    | _, .done => none
    | _, .publishing e =>
      match s.pool.executions[e]? with
      | none => none
      | some x => some (s.crash k e x)
    | _, _ => some (s.setStage k .done)

/-- What an action does, with what it found. A worker whose task fails or panics before it publishes, or that crashes
    then, is through with its reply. -/
inductive Stepped (app : App) (s : Cluster) : Action → Cluster → Prop where
  | master {a : Job.Action} {job : Job} (hno : a.isReport = false) (hj : Job.Stepped s.job a job) :
      Stepped app s (.master a) (s.setJob job)
  | ended {a : Action} {k : Nat} (ha : (∃ mapRes, a = .perform k mapRes) ∨ a = .gather k ∨ a = .crash k)
      (hst : ∀ e, s.stages k ≠ .publishing e) : Stepped app s a (s.setStage k .done)
  | mapped {k : Nat} {mapRes : List KeyValue} {a : Assignment} {content : String} {kvall : List (List KeyValue)}
      (ha : s.job.assignments[k]? = some a) (hst : s.stages k = .replied) (hkind : a.reply.kind = some .map)
      (hread : app.input a.reply.file = some content) (hperm : mapRes.Perm (app.mapf a.reply.file content))
      (hloop : bucketLoop a.reply.nReduce mapRes (List.replicate a.reply.nReduce []) = some kvall) :
      Stepped app s (.perform k mapRes) (s.publish k (mapOutputs (fun kv => [.json kv]) a.reply.index kvall))
  | gathering {k : Nat} {mapRes : List KeyValue} {a : Assignment} (ha : s.job.assignments[k]? = some a)
      (hst : s.stages k = .replied) (hkind : a.reply.kind = some .reduce) :
      Stepped app s (.perform k mapRes) (s.setStage k (.gathering 0 []))
  | gathered {k next : Nat} {kva : List KeyValue} {a : Assignment} {cells : List Cell}
      (ha : s.job.assignments[k]? = some a) (hst : s.stages k = .gathering next kva) (hlt : next < a.reply.splite)
      (hread : s.pool.fs.read (.final (.inter next a.reply.index)) = some cells) :
      Stepped app s (.gather k) (s.setStage k (.gathering (next + 1) (kva ++ decode cells)))
  | reduced {k next : Nat} {kva : List KeyValue} {a : Assignment} (ha : s.job.assignments[k]? = some a)
      (hst : s.stages k = .gathering next kva) (hge : a.reply.splite ≤ next) :
      Stepped app s (.gather k) (s.publish k (reduced app a.reply.index kva))
  | operated {k e : Nat} {pool : Pool Output Cell} (hst : s.stages k = .publishing e)
      (hp : Pool.Stepped s.pool (.step e) pool) : Stepped app s (.operate k) (s.setPool pool)
  | failed {k e : Nat} {x : Execution Output Cell} (hst : s.stages k = .publishing e)
      (hx : s.pool.executions[e]? = some x) (htodo : x.process.todo = []) :
      Stepped app s (.finish k) (s.setStage k .done)
  | reported {k e : Nat} {x : Execution Output Cell} {job : Job} (hst : s.stages k = .publishing e)
      (hx : s.pool.executions[e]? = some x) (htodo : x.process.todo = []) (hok : x.process.ok = true)
      (hj : Job.Stepped s.job (.report k) job) : Stepped app s (.finish k) (s.report k job)
  | crashed {k e : Nat} {x : Execution Output Cell} (hst : s.stages k = .publishing e)
      (hx : s.pool.executions[e]? = some x) : Stepped app s (.crash k) (s.crash k e x)

theorem perform_inv {app : App} {s s' : Cluster} {k : Nat} {a : Assignment} {mapRes : List KeyValue}
    (ha : s.job.assignments[k]? = some a) (hst : s.stages k = .replied) (h : s.perform app k a.reply mapRes = some s') :
    Stepped app s (.perform k mapRes) s' := by
  simp only [perform] at h
  split at h
  · cases h
  · rename_i hkind
    cases h
    exact .gathering ha hst hkind
  · rename_i hkind
    split at h
    · cases h
      exact .ended (Or.inl ⟨mapRes, rfl⟩) fun e he => by rw [hst] at he; cases he
    · rename_i content hread
      split at h
      · rename_i hperm
        split at h
        · cases h
          exact .ended (Or.inl ⟨mapRes, rfl⟩) fun e he => by rw [hst] at he; cases he
        · rename_i kvall hloop
          cases h
          exact .mapped ha hst hkind hread hperm hloop
      · cases h

theorem gather_inv (app : App) {s : Cluster} {k next : Nat} {a : Assignment} {kva : List KeyValue}
    (ha : s.job.assignments[k]? = some a) (hst : s.stages k = .gathering next kva) :
    Stepped app s (.gather k) (s.gather app k a.reply next kva) := by
  unfold gather
  split
  · rename_i hlt
    cases hread : s.pool.fs.read (.final (.inter next a.reply.index)) with
    | none => exact .ended (Or.inr (Or.inl rfl)) fun e he => by rw [hst] at he; cases he
    | some cells => exact .gathered ha hst hlt hread
  · rename_i hge
    exact .reduced ha hst (Nat.le_of_not_lt hge)

theorem finish_inv {app : App} {s s' : Cluster} {k e : Nat} {x : Execution Output Cell}
    (hst : s.stages k = .publishing e) (hx : s.pool.executions[e]? = some x) (h : s.finish k x = some s') :
    Stepped app s (.finish k) s' := by
  unfold finish at h
  split at h
  · rename_i hend
    split at h
    · rename_i hok
      obtain ⟨job, hj, rfl⟩ := Option.map_eq_some_iff.mp h
      exact .reported hst hx hend.1 hok (Job.step_inv hj)
    · cases h
      exact .failed hst hx hend.1
  · cases h

theorem step_inv {app : App} {s s' : Cluster} {a : Action} (h : s.step app a = some s') : Stepped app s a s' := by
  cases a with
  | master a =>
    simp only [step] at h
    split at h
    · cases h
    · rename_i hno
      obtain ⟨job, hj, rfl⟩ := Option.map_eq_some_iff.mp h
      exact .master (Bool.eq_false_iff.mpr hno) (Job.step_inv hj)
  | perform k mapRes =>
    simp only [step] at h
    split at h
    · rename_i a ha hst
      exact perform_inv ha hst h
    · cases h
  | gather k =>
    simp only [step] at h
    split at h
    · rename_i a next kva ha hst
      cases h
      exact gather_inv app ha hst
    · cases h
  | operate k =>
    simp only [step] at h
    split at h
    · rename_i e hst
      obtain ⟨pool, hp, rfl⟩ := Option.map_eq_some_iff.mp h
      exact .operated hst (Pool.step_inv hp)
    · cases h
  | finish k =>
    simp only [step] at h
    split at h
    · rename_i e hst
      split at h
      · cases h
      · rename_i x hx
        exact finish_inv hst hx h
    · cases h
  | crash k =>
    simp only [step] at h
    split at h
    · cases h
    · cases h
    · rename_i e hst _
      split at h
      · cases h
      · rename_i x hx
        cases h
        exact .crashed hst hx
    · rename_i hno
      cases h
      exact .ended (Or.inr (Or.inr rfl)) hno

/-- Reached from a master that was just made and an empty directory, by steps that meet `P`. -/
def Reachable (app : App) (files : List String) (nReduce : Nat) (P : Cluster → Action → Prop) (s : Cluster) : Prop :=
  ∃ now, Run.Steps (step app) P (init files nReduce now) s

end Cluster

end DistributedLabs.MapReduce
