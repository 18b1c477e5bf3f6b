import DistributedLabs.MapReduce.Cluster
import Mathlib.Data.List.Sort

/-! What the whole of MapReduce leaves in its directory. A final file always holds what the sequential program makes of
    its part of the input, and when `Done` holds the output files together are the output of the sequential program.
    Steps are to open temporary files exclusively, and no report is to complete a task for the second time. -/

namespace DistributedLabs.MapReduce

open FileSystem Publication Grouping

/-! ### The tables of the master -/

/-- The reply of a master for these files and so many reduce tasks. -/
def AskReply.Tells (files : List String) (nReduce : Nat) (reply : AskReply) : Prop :=
  match reply.kind with
  | none => False
  | some .map => files[reply.index]? = some reply.file ∧ reply.nReduce = nReduce
  | some .reduce => reply.splite = files.length

theorem AskReply.Tells.map {files : List String} {nReduce : Nat} {reply : AskReply} (h : reply.Tells files nReduce)
    (hkind : reply.kind = some .map) : files[reply.index]? = some reply.file ∧ reply.nReduce = nReduce := by
  rwa [Tells, hkind] at h

theorem AskReply.Tells.reduce {files : List String} {nReduce : Nat} {reply : AskReply} (h : reply.Tells files nReduce)
    (hkind : reply.kind = some .reduce) : reply.splite = files.length := by
  rwa [Tells, hkind] at h

theorem Task.filename_wait (task : Task) : task.wait.filename = task.filename := by
  unfold Task.wait
  split
  · rfl
  · rfl

namespace Job

variable {s s' : Job} {a : Action} {kind : Kind} {i : Nat} {task : Task} {files : List String} {nReduce : Nat}

theorem Stepped.filenames (h : Stepped s a s') (kind : Kind) :
    (s'.master.tasks kind).map Task.filename = (s.master.tasks kind).map Task.filename := by
  have set : ∀ {kind' i task task'}, (s.master.tasks kind')[i]? = some task → task'.filename = task.filename →
      ((s.master.setTask kind' i task').tasks kind).map Task.filename = (s.master.tasks kind).map Task.filename := by
    intro kind' i task task' htask hname
    rw [Master.tasks_setTask]
    split
    · rename_i hk
      subst hk
      exact Table.map_set_of_eq _ htask hname
    · rfl
  cases h with
  | handOut _ htask => exact set htask rfl
  | expire _ _ _ htask => exact set htask (Task.filename_wait _)
  | complete _ _ _ htask => exact set htask rfl
  | decrement => rw [decrement_master, Master.tasks_decrement]
  | _ => rfl

/-- The tasks of the files, so many reduce tasks, and replies that agree with them. -/
structure Tables (files : List String) (nReduce : Nat) (s : Job) : Prop where
  filenames : s.master.mtasks.map Task.filename = files
  reduces : s.master.rtasks.length = nReduce
  replies : ∀ b ∈ s.assignments, b.reply.Tells files nReduce

theorem tables_init (files : List String) (nReduce now : Nat) : (init files nReduce now).Tables files nReduce where
  filenames := by simp [init, Master.make, Function.comp_def]
  reduces := List.length_replicate
  replies b hb := by cases hb

theorem state_init {now : Nat} (htask : ((init files nReduce now).master.tasks kind)[i]? = some task) :
    task.state = .idle := by
  have hmem := List.mem_of_getElem? htask
  cases kind with
  | map =>
    obtain ⟨file, -, rfl⟩ := List.mem_map.mp hmem
    rfl
  | reduce => rw [List.eq_of_mem_replicate hmem]

theorem Tables.reply (h : s.Tables files nReduce) (htask : (s.master.tasks kind)[i]? = some task) :
    (s.master.reply kind i task).Tells files nReduce := by
  cases kind with
  | map =>
    refine ⟨?_, h.reduces⟩
    have htask' : s.master.mtasks[i]? = some task := htask
    rw [← h.filenames, List.getElem?_map]
    simp [Master.reply, htask']
  | reduce =>
    have hlen := congrArg List.length h.filenames
    rw [List.length_map] at hlen
    exact hlen

theorem Tables.step (h : s.Tables files nReduce) (hs : Stepped s a s') : s'.Tables files nReduce := by
  refine ⟨(hs.filenames .map).trans h.filenames, (hs.tasks_length .reduce).trans h.reduces, fun b hb => ?_⟩
  cases hs with
  | handOut _ htask =>
    rcases List.mem_append.mp hb with hb | hb
    · exact h.replies b hb
    · rw [List.mem_singleton.mp hb]
      exact h.reply htask
  | @report k b₀ _ hb₀ =>
    rcases List.mem_or_eq_of_mem_set hb with hb | rfl
    · exact h.replies b hb
    · exact h.replies b₀ (List.mem_of_getElem? hb₀)
  | _ => exact h.replies b hb

/-- A response that is handled after a step was handled before it, or a worker reports now. -/
theorem Stepped.response (h : Stepped s a s') {r : Response} (hr : r ∈ s'.responses) :
    (∃ r₀ ∈ s.responses, r₀.args = r.args) ∨
      ∃ k b, a = .report k ∧ s.assignments[k]? = some b ∧ b.reply.response = some r.args := by
  cases h with
  | @report k b args hb hargs =>
    rcases List.mem_append.mp hr with hr | hr
    · exact Or.inl ⟨r, hr, rfl⟩
    · cases List.mem_singleton.mp hr
      exact Or.inr ⟨k, b, rfl, hb, hargs⟩
  | @accept k r₀ _ hr₀ =>
    rcases List.mem_or_eq_of_mem_set hr with hr | rfl
    · exact Or.inl ⟨r, hr, rfl⟩
    · exact Or.inl ⟨r₀, List.mem_of_getElem? hr₀, rfl⟩
  | @complete k r₀ _ hr₀ =>
    rcases List.mem_or_eq_of_mem_set hr with hr | rfl
    · exact Or.inl ⟨r, hr, rfl⟩
    · exact Or.inl ⟨r₀, List.mem_of_getElem? hr₀, rfl⟩
  | ignore => exact Or.inl ⟨r, List.mem_of_mem_eraseIdx hr, rfl⟩
  | decrement => exact Or.inl ⟨r, List.mem_of_mem_eraseIdx hr, rfl⟩
  | _ => exact Or.inl ⟨r, hr, rfl⟩

/-- A task that is completed after a step was so before it, or a response completes it. -/
theorem Stepped.completed (h : Stepped s a s') (htask : (s'.master.tasks kind)[i]? = some task)
    (hc : task.state = .completed) :
    (∃ task₀, (s.master.tasks kind)[i]? = some task₀ ∧ task₀.state = .completed) ∨
      ∃ r ∈ s.responses, r.args = ⟨kind, i⟩ := by
  -- A task that is set is the one looked at, or this one is as before.
  have set : ∀ {kind' j task₁ task'}, (s.master.tasks kind')[j]? = some task₁ →
      ((s.master.setTask kind' j task').tasks kind)[i]? = some task →
      (kind' = kind ∧ j = i ∧ task = task') ∨ (s.master.tasks kind)[i]? = some task := by
    intro kind' j task₁ task' htask₁ hset
    by_cases hfor : kind' = kind ∧ j = i
    · obtain ⟨rfl, rfl⟩ := hfor
      rw [Master.tasks_setTask_self htask₁] at hset
      exact Or.inl ⟨rfl, rfl, (Option.some.inj hset).symm⟩
    · rw [Master.tasks_setTask_ne hfor] at hset
      exact Or.inr hset
  cases h with
  | handOut _ htask₁ =>
    rcases set htask₁ htask with ⟨-, -, rfl⟩ | hsame
    · cases hc
    · exact Or.inl ⟨task, hsame, hc⟩
  | @expire k w task₁ _ _ _ htask₁ =>
    rcases set htask₁ htask with ⟨rfl, rfl, rfl⟩ | hsame
    · refine Or.inl ⟨task₁, htask₁, ?_⟩
      unfold Task.wait at hc
      split at hc
      · assumption
      · cases hc
    · exact Or.inl ⟨task, hsame, hc⟩
  | @complete k r task₁ hr _ _ htask₁ =>
    rcases set htask₁ htask with ⟨rfl, rfl, -⟩ | hsame
    · exact Or.inr ⟨r, List.mem_of_getElem? hr, rfl⟩
    · exact Or.inl ⟨task, hsame, hc⟩
  | decrement =>
    rw [decrement_master, Master.tasks_decrement] at htask
    exact Or.inl ⟨task, htask, hc⟩
  | _ => exact Or.inl ⟨task, htask, hc⟩

end Job

/-! ### What is right -/

section Right
variable (app : App) (files : List String) (nReduce : Nat)

/-- What a final file may hold: the pairs of a bucket from an input file that was read, in the order of one call of the
    map function, or the records of all pairs of a bucket. -/
def App.Right : Output → List Cell → Prop
  | .inter i j, content => ∃ filename text kvs, files[i]? = some filename ∧ app.input filename = some text ∧
      kvs.Perm (app.mapf filename text) ∧ content = (inBucket nReduce j kvs).map .json
  | .out j, content => ∃ kvs, kvs.Perm (inBucket nReduce j (files.flatMap (pairsOf app.mapf app.input))) ∧
      content = (reduceLoop app.reducef (app.sort.sort kvs) 0).map fun r => .line r.1 r.2

/-- The input files of a task. -/
def ResponseArgs.inputs (args : ResponseArgs) : List String :=
  match args.kind with
  | .map => files[args.index]?.toList
  | .reduce => files

/-- The outputs of a task. -/
def ResponseArgs.outputs (args : ResponseArgs) : List Output :=
  match args.kind with
  | .map => (List.range nReduce).map (.inter args.index)
  | .reduce => [.out args.index]

/-- The input files of a task could be read, and its output files are there. -/
structure Performed (fs : Directory) (args : ResponseArgs) : Prop where
  inputs : ∀ filename ∈ args.inputs files, (app.input filename).isSome
  outputs : ∀ o ∈ args.outputs nReduce, (fs.names (.final o)).isSome

end Right

section Tasks
variable {app : App} {files : List String} {nReduce : Nat} {fs fs' : Directory} {args : ResponseArgs}

theorem Performed.kept (h : Performed app files nReduce fs args)
    (hkept : ∀ o, (fs.names (.final o)).isSome → (fs'.names (.final o)).isSome) : Performed app files nReduce fs' args :=
  ⟨h.inputs, fun o ho => hkept o (h.outputs o ho)⟩

theorem inBucket_perm {j : Nat} {kvs kvs' : List KeyValue} (h : kvs.Perm kvs') :
    (inBucket nReduce j kvs).Perm (inBucket nReduce j kvs') := h.filter _

/-- What a map task writes: one file for each bucket, which is right. -/
theorem right_mapped {filename text : String} {index : Nat} {mapRes : List KeyValue} {kvall : List (List KeyValue)}
    (hn : 0 < nReduce) (hfile : files[index]? = some filename) (hread : app.input filename = some text)
    (hperm : mapRes.Perm (app.mapf filename text))
    (hloop : bucketLoop nReduce mapRes (List.replicate nReduce []) = some kvall) :
    (∀ y ∈ mapOutputs (fun kv => [Cell.json kv]) index kvall, app.Right files nReduce y.1 y.2.flatten) ∧
    ∀ o, o ∈ (mapOutputs (fun kv => [Cell.json kv]) index kvall).map Prod.fst ↔
      o ∈ (⟨.map, index⟩ : ResponseArgs).outputs nReduce := by
  obtain ⟨kvall', hloop', hlen, hget⟩ := bucketLoop_eq hn mapRes _ (List.length_replicate (a := []))
  rw [hloop] at hloop'
  cases hloop'
  constructor
  · intro y hy
    obtain ⟨j, kva, hkva, rfl⟩ := mem_mapOutputs.mp hy
    have hj : j < nReduce := hlen ▸ (List.getElem?_eq_some_iff.mp hkva).1
    have heq : kva = inBucket nReduce j mapRes := by simpa [hj, hkva] using hget j
    exact ⟨filename, text, mapRes, hfile, hread, hperm, by rw [flatten_cells, heq]⟩
  · intro o
    simp only [List.mem_map, ResponseArgs.outputs, List.mem_range]
    constructor
    · rintro ⟨y, hy, rfl⟩
      obtain ⟨j, kva, hkva, rfl⟩ := mem_mapOutputs.mp hy
      exact ⟨j, hlen ▸ (List.getElem?_eq_some_iff.mp hkva).1, rfl⟩
    · rintro ⟨j, hj, rfl⟩
      exact ⟨_, mem_mapOutputs.mpr ⟨j, _, List.getElem?_eq_getElem (hlen.symm ▸ hj), rfl⟩, rfl⟩

theorem right_reduced {index : Nat} {kva : List KeyValue}
    (hkva : kva.Perm (inBucket nReduce index (files.flatMap (pairsOf app.mapf app.input)))) :
    ∀ y ∈ Cluster.reduced app index kva, app.Right files nReduce y.1 y.2.flatten := by
  intro y hy
  cases List.mem_singleton.mp hy
  exact ⟨kva, hkva, flatten_cells (fun r : String × String => .line r.1 r.2) _⟩

/-- An intermediate file adds the pairs of its input file to those gathered before. -/
theorem right_gathered {next index : Nat} {kva : List KeyValue} {cells : List Cell}
    (hright : app.Right files nReduce (.inter next index) cells)
    (hkva : kva.Perm ((List.range next).flatMap fun i => inBucket nReduce index (pairsAt app.mapf app.input files i))) :
    (kva ++ decode cells).Perm
      ((List.range (next + 1)).flatMap fun i => inBucket nReduce index (pairsAt app.mapf app.input files i)) := by
  obtain ⟨filename, text, kvs, hfile, hread, hperm, rfl⟩ := hright
  have hpairs : pairsAt app.mapf app.input files next = app.mapf filename text := by
    simp [pairsAt, hfile, pairsOf, hread]
  rw [decode_json, List.range_succ, List.flatMap_append, List.flatMap_singleton, hpairs]
  exact hkva.append (inBucket_perm hperm)

end Tasks

/-! ### The invariant -/

namespace Cluster

/-- A step opens temporary files exclusively, and no report completes a task for the second time. -/
def Guarded (s : Cluster) : Action → Prop
  | .master a => Job.FirstReport s.job a
  | .operate k =>
    match s.stages k with
    | .publishing e => s.pool.Exclusive (.step e)
    | _ => True
  | _ => True

section Inv
variable (app : App) (files : List String) (nReduce : Nat)

/-- What a worker has read and begun to publish is right for its reply. -/
def Working (job : Job) (pool : Pool Output Cell) (k : Nat) : Stage → Prop
  | .gathering next kva => ∃ a, job.assignments[k]? = some a ∧ a.reply.kind = some .reduce ∧ next ≤ files.length ∧
      (∀ filename ∈ files.take next, (app.input filename).isSome) ∧
      kva.Perm ((List.range next).flatMap fun i => inBucket nReduce a.reply.index (pairsAt app.mapf app.input files i))
  | .publishing e => ∃ a args x, job.assignments[k]? = some a ∧ a.reply.response = some args ∧
      pool.executions[e]? = some x ∧ (∀ filename ∈ args.inputs files, (app.input filename).isSome) ∧
      ∀ o, o ∈ x.outputs.map Prod.fst ↔ o ∈ args.outputs nReduce
  | _ => True

structure Inv (s : Cluster) : Prop where
  accounts : s.job.Accounts
  tables : s.job.Tables files nReduce
  pool : s.pool.Delivering (app.Right files nReduce)
  working : ∀ k, Working app files nReduce s.job s.pool k (s.stages k)
  responses : ∀ r ∈ s.job.responses, Performed app files nReduce s.pool.fs r.args
  completed : ∀ kind i task, (s.job.master.tasks kind)[i]? = some task → task.state = .completed →
    Performed app files nReduce s.pool.fs ⟨kind, i⟩

end Inv

variable {app : App} {files : List String} {nReduce : Nat} {s s' : Cluster} {a : Action}

theorem inv_init (now : Nat) : Inv app files nReduce (init files nReduce now) where
  accounts := Job.accounts_init files nReduce now
  tables := Job.tables_init files nReduce now
  pool := ⟨Pool.sound_init fun _ => rfl, fun x hx => (by cases hx), fun x hx => (by cases hx), fun x hx => by cases hx⟩
  working _ := trivial
  responses r hr := by cases hr
  completed kind i task htask hc := by
    rw [Job.state_init htask] at hc
    cases hc

/-- What a worker has done stays right while its reply and its execution are there. -/
theorem Working.kept {job job' : Job} {pool pool' : Pool Output Cell} {k : Nat} {stage : Stage}
    (h : Working app files nReduce job pool k stage)
    (hjob : ∀ b, job.assignments[k]? = some b → ∃ b', job'.assignments[k]? = some b' ∧ b'.reply = b.reply)
    (hpool : ∀ (e : Nat) (x : Execution Output Cell), pool.executions[e]? = some x →
      ∃ x', pool'.executions[e]? = some x' ∧ x'.outputs = x.outputs) :
    Working app files nReduce job' pool' k stage := by
  cases stage with
  | replied => trivial
  | done => trivial
  | gathering next kva =>
    obtain ⟨b, hb, hkind, hrest⟩ := h
    obtain ⟨b', hb', hreply⟩ := hjob b hb
    exact ⟨b', hb', hreply ▸ hkind, hreply ▸ hrest⟩
  | publishing e =>
    obtain ⟨b, args, x, hb, hargs, hx, hinputs, houts⟩ := h
    obtain ⟨b', hb', hreply⟩ := hjob b hb
    obtain ⟨x', hx', hsame⟩ := hpool e x hx
    exact ⟨b', args, x', hb', hreply ▸ hargs, hx', hinputs, hsame ▸ houts⟩

theorem Stepped.pool (h : Stepped app s a s') : s'.pool = s.pool ∨ ∃ b, Pool.Stepped s.pool b s'.pool := by
  cases h with
  | mapped => exact Or.inr ⟨_, .start⟩
  | reduced => exact Or.inr ⟨_, .start⟩
  | operated _ hp => exact Or.inr ⟨_, hp⟩
  | crashed _ hx => exact Or.inr ⟨_, .crash hx⟩
  | _ => exact Or.inl rfl

theorem Stepped.job (h : Stepped app s a s') :
    s'.job = s.job ∨ ∃ b, Job.Stepped s.job b s'.job ∧ (a = .master b ∨ b.isReport = true) := by
  cases h with
  | master _ hj => exact Or.inr ⟨_, hj, Or.inl rfl⟩
  | reported _ _ _ _ hj => exact Or.inr ⟨_, hj, Or.inr rfl⟩
  | _ => exact Or.inl rfl

theorem Stepped.assignment_kept (h : Stepped app s a s') (k : Nat) (b : Assignment)
    (hb : s.job.assignments[k]? = some b) : ∃ b', s'.job.assignments[k]? = some b' ∧ b'.reply = b.reply := by
  rcases h.job with hsame | ⟨_, hj, -⟩
  · exact ⟨b, hsame ▸ hb, rfl⟩
  · obtain ⟨b', hb', hreply, -⟩ := hj.assignment hb
    exact ⟨b', hb', hreply⟩

theorem Stepped.execution_kept (h : Stepped app s a s') (e : Nat) (x : Execution Output Cell)
    (hx : s.pool.executions[e]? = some x) : ∃ x', s'.pool.executions[e]? = some x' ∧ x'.outputs = x.outputs := by
  rcases h.pool with hsame | ⟨_, hp⟩
  · exact ⟨x, hsame ▸ hx, rfl⟩
  · exact hp.execution_kept hx

namespace Inv

theorem final_kept (h : Inv app files nReduce s) (hs : Stepped app s a s') (o : Output)
    (ho : (s.pool.fs.names (.final o)).isSome) : (s'.pool.fs.names (.final o)).isSome := by
  rcases hs.pool with hsame | ⟨_, hp⟩
  · rwa [hsame]
  · exact h.pool.final_kept hp ho

theorem accounts_step (h : Inv app files nReduce s) (hg : s.Guarded a) (hs : Stepped app s a s') : s'.job.Accounts := by
  rcases hs.job with hsame | ⟨b, hj, rfl | hreport⟩
  · rw [hsame]
    exact h.accounts
  · exact h.accounts.step hg hj
  · refine h.accounts.step (fun task htask => ?_) hj
    cases b <;> first | cases htask | cases hreport

theorem tables_step (h : Inv app files nReduce s) (hs : Stepped app s a s') : s'.job.Tables files nReduce := by
  rcases hs.job with hsame | ⟨b, hj, -⟩
  · rw [hsame]
    exact h.tables
  · exact h.tables.step hj

/-- All intermediate files were read: the pairs are those of the bucket. -/
theorem gathered_all (h : Inv app files nReduce s) {k next : Nat} {kva : List KeyValue} {b : Assignment}
    (hb : s.job.assignments[k]? = some b) (hst : s.stages k = .gathering next kva) (hge : b.reply.splite ≤ next) :
    b.reply.kind = some .reduce ∧ (∀ filename ∈ files, (app.input filename).isSome) ∧
      kva.Perm (inBucket nReduce b.reply.index (files.flatMap (pairsOf app.mapf app.input))) := by
  have hw := h.working k
  rw [hst] at hw
  obtain ⟨b', hb', hkind, hle, hinputs, hkva⟩ := hw
  rw [hb] at hb'
  cases hb'
  have hsplite := (h.tables.replies b (List.mem_of_getElem? hb)).reduce hkind
  have hnext : next = files.length := Nat.le_antisymm hle (hsplite ▸ hge)
  subst hnext
  rw [List.take_length] at hinputs
  rw [inBucket_flatMap] at hkva
  exact ⟨hkind, hinputs, hkva⟩

/-- What is published is right. -/
theorem right (h : Inv app files nReduce s) {o : Output} {content : List Cell}
    (hread : s.pool.fs.read (.final o) = some content) : app.Right files nReduce o content := by
  have hname : (s.pool.fs.names (.final o)).isSome := by
    rw [← Option.isSome_map, ← FS.read, hread]
    rfl
  obtain ⟨content', hread', hright⟩ := h.pool.read hname
  rw [hread] at hread'
  cases hread'
  exact hright

theorem pool_step (h : Inv app files nReduce s) (hn : 0 < nReduce) (hg : s.Guarded a) (hs : Stepped app s a s') :
    s'.pool.Delivering (app.Right files nReduce) := by
  cases hs with
  | @mapped k mapRes b text kvall hb hst hkind hread hperm hloop =>
    obtain ⟨hfile, hnReduce⟩ := (h.tables.replies b (List.mem_of_getElem? hb)).map hkind
    rw [hnReduce] at hloop
    refine h.pool.step (fun x hx => by cases hx) (fun outputs heq => ?_) .start
    cases heq
    exact (right_mapped hn hfile hread hperm hloop).1
  | reduced hb hst hge =>
    refine h.pool.step (fun x hx => by cases hx) (fun outputs heq => ?_) .start
    cases heq
    exact right_reduced (h.gathered_all hb hst hge).2.2
  | operated hst hp =>
    simp only [Guarded, hst] at hg
    exact h.pool.step hg (fun outputs heq => by cases heq) hp
  | crashed _ hx => exact h.pool.step (fun x hx => by cases hx) (fun outputs heq => by cases heq) (.crash hx)
  | _ => exact h.pool

/-- The stage of one worker changes. -/
theorem working_update (h : Inv app files nReduce s) (hs : Stepped app s a s') {k : Nat} {stage : Stage}
    (hstages : s'.stages = Function.update s.stages k stage) (hw : Working app files nReduce s'.job s'.pool k stage) :
    ∀ k', Working app files nReduce s'.job s'.pool k' (s'.stages k') := by
  intro k'
  rw [hstages, Function.update_apply]
  split
  · rename_i hk
    rwa [hk]
  · exact (h.working k').kept (hs.assignment_kept k') hs.execution_kept

theorem working_publish (h : Inv app files nReduce s) {k : Nat} {outputs : List (Output × List (List Cell))}
    (hs : Stepped app s a (s.publish k outputs)) {b : Assignment} {args : ResponseArgs}
    (hb : s.job.assignments[k]? = some b) (hargs : b.reply.response = some args)
    (hinputs : ∀ filename ∈ args.inputs files, (app.input filename).isSome)
    (houts : ∀ o, o ∈ outputs.map Prod.fst ↔ o ∈ args.outputs nReduce) (k' : Nat) :
    Working app files nReduce s.job (s.pool.start outputs) k' ((s.publish k outputs).stages k') := by
  refine h.working_update hs rfl ⟨b, args, ⟨outputs, .start (publishAll outputs), true⟩, hb, hargs, ?_, hinputs, houts⟩ k'
  rw [publish_pool, Pool.start_executions, List.getElem?_concat_length]

theorem working_step (h : Inv app files nReduce s) (hn : 0 < nReduce) (hs : Stepped app s a s') :
    ∀ k, Working app files nReduce s'.job s'.pool k (s'.stages k) := by
  have hs' := hs
  cases hs' with
  | master => exact fun k => (h.working k).kept (hs.assignment_kept k) hs.execution_kept
  | operated => exact fun k => (h.working k).kept (hs.assignment_kept k) hs.execution_kept
  | ended => exact h.working_update hs rfl trivial
  | failed => exact h.working_update hs rfl trivial
  | reported => exact h.working_update hs rfl trivial
  | crashed => exact h.working_update hs rfl trivial
  | @mapped k mapRes b text kvall hb hst hkind hread hperm hloop =>
    obtain ⟨hfile, hnReduce⟩ := (h.tables.replies b (List.mem_of_getElem? hb)).map hkind
    rw [hnReduce] at hloop
    refine h.working_publish hs hb (by simp [AskReply.response, hkind]) (fun filename hmem => ?_)
      (right_mapped hn hfile hread hperm hloop).2
    simp only [ResponseArgs.inputs, hfile, Option.toList_some, List.mem_singleton] at hmem
    rw [hmem, hread]
    rfl
  | @gathering k mapRes b hb hst hkind =>
    exact h.working_update hs rfl ⟨b, hb, hkind, Nat.zero_le _, by simp, by simp⟩
  | @gathered k next kva b cells hb hst hlt hread =>
    have hw := h.working k
    rw [hst] at hw
    obtain ⟨b', hb', hkind, hle, hinputs, hkva⟩ := hw
    rw [hb] at hb'
    cases hb'
    have hsplite := (h.tables.replies b (List.mem_of_getElem? hb)).reduce hkind
    have hright := h.right hread
    refine h.working_update hs rfl ⟨b, hb, hkind, hsplite ▸ hlt, fun filename hmem => ?_, right_gathered hright hkva⟩
    obtain ⟨filename', text, -, hfile, hinput, -⟩ := hright
    rw [List.take_add_one, hfile, Option.toList_some, List.mem_append, List.mem_singleton] at hmem
    rcases hmem with hmem | rfl
    · exact hinputs filename hmem
    · rw [hinput]
      rfl
  | @reduced k next kva b hb hst hge =>
    obtain ⟨hkind, hinputs, -⟩ := h.gathered_all hb hst hge
    refine h.working_publish hs hb (show _ = some ⟨.reduce, b.reply.index⟩ by simp [AskReply.response, hkind]) hinputs
      fun o => ?_
    simp [Cluster.reduced, reduceOutputs, ResponseArgs.outputs]

/-- A worker at the end of its task has performed it. -/
theorem performed (h : Inv app files nReduce s) {k e : Nat} {x : Execution Output Cell} {b : Assignment}
    {args : ResponseArgs} (hst : s.stages k = .publishing e) (hx : s.pool.executions[e]? = some x)
    (htodo : x.process.todo = []) (hok : x.process.ok = true) (hb : s.job.assignments[k]? = some b)
    (hargs : b.reply.response = some args) : Performed app files nReduce s.pool.fs args := by
  have hw := h.working k
  rw [hst] at hw
  obtain ⟨b', args', x', hb', hargs', hx', hinputs, houts⟩ := hw
  rw [hb] at hb'
  cases hb'
  rw [hargs] at hargs'
  cases hargs'
  rw [hx] at hx'
  cases hx'
  refine ⟨hinputs, fun o ho => ?_⟩
  obtain ⟨y, hy, rfl⟩ := List.mem_map.mp ((houts o).mpr ho)
  exact h.pool.ended (List.mem_of_getElem? hx) htodo hok y hy

theorem responses_step (h : Inv app files nReduce s) (hs : Stepped app s a s') :
    ∀ r ∈ s'.job.responses, Performed app files nReduce s'.pool.fs r.args := by
  intro r hr
  have kept : ∀ {args}, Performed app files nReduce s.pool.fs args → Performed app files nReduce s'.pool.fs args :=
    fun hp => hp.kept (h.final_kept hs)
  cases hs with
  | master hno hj =>
    rcases hj.response hr with ⟨r₀, hr₀, hargs⟩ | ⟨k, b, rfl, -⟩
    · exact hargs ▸ h.responses r₀ hr₀
    · cases hno
  | reported hst hx htodo hok hj =>
    rcases hj.response hr with ⟨r₀, hr₀, hargs⟩ | ⟨k', b, heq, hb, hargs⟩
    · exact hargs ▸ h.responses r₀ hr₀
    · cases heq
      exact h.performed hst hx htodo hok hb hargs
  | _ => exact kept (h.responses r hr)

theorem completed_step (h : Inv app files nReduce s) (hs : Stepped app s a s') (kind : Kind) (i : Nat) (task : Task)
    (htask : (s'.job.master.tasks kind)[i]? = some task) (hc : task.state = .completed) :
    Performed app files nReduce s'.pool.fs ⟨kind, i⟩ := by
  have before : Performed app files nReduce s.pool.fs ⟨kind, i⟩ := by
    rcases hs.job with hsame | ⟨b, hj, -⟩
    · exact h.completed kind i task (hsame ▸ htask) hc
    · rcases hj.completed htask hc with ⟨task₀, htask₀, hc₀⟩ | ⟨r, hr, hargs⟩
      · exact h.completed kind i task₀ htask₀ hc₀
      · exact hargs ▸ h.responses r hr
  exact before.kept (h.final_kept hs)

theorem step (h : Inv app files nReduce s) (hn : 0 < nReduce) (hg : s.Guarded a) (hs : Stepped app s a s') :
    Inv app files nReduce s' :=
  ⟨h.accounts_step hg hs, h.tables_step hs, h.pool_step hn hg hs, h.working_step hn hs, h.responses_step hs,
    h.completed_step hs⟩

end Inv

theorem Reachable.inv (hn : 0 < nReduce) (h : Reachable app files nReduce Guarded s) : Inv app files nReduce s := by
  obtain ⟨now, h⟩ := h
  exact Run.Steps.keeps (fun s s' a hi ha hs => hi.step hn ha (step_inv hs)) h (inv_init now)

/-! ### The output -/

/-- When `Done` holds, every reduce task was performed. -/
theorem Inv.reduces_performed (h : Inv app files nReduce s) (hdone : s.job.master.done = true) {j : Nat}
    (hj : j < nReduce) : Performed app files nReduce s.pool.fs ⟨.reduce, j⟩ := by
  have hremain := h.accounts.remain .reduce
  rw [(Master.done_iff _).mp hdone] at hremain
  have hzero : s.job.master.unfinished .reduce = 0 := by omega
  have htask := List.getElem?_eq_getElem (h.tables.reduces.symm ▸ hj)
  exact h.completed .reduce j _ htask (Master.unfinished_eq_zero.mp hzero _ (List.mem_of_getElem? htask))

/-- The output files, and that they are together what the sequential program computes. -/
theorem Inv.output (h : Inv app files nReduce s) (hn : 0 < nReduce)
    (hreducef : ∀ key vs vs', vs.Perm vs' → app.reducef key vs = app.reducef key vs')
    (hdone : s.job.master.done = true) :
    ∃ cells, sequential app.mapf app.reducef app.sort app.input files = some cells ∧
      (∀ j < nReduce, (s.pool.fs.read (.final (.out j))).isSome) ∧
      ((List.range nReduce).flatMap (recordsOf s.pool.fs)).Perm (records cells) ∧
      Groups KeyValue.key KeyValue.value app.reducef (files.flatMap (pairsOf app.mapf app.input))
        ((List.range nReduce).flatMap (recordsOf s.pool.fs)) := by
  have hout : ∀ j < nReduce, ∃ content, s.pool.fs.read (.final (.out j)) = some content ∧
      app.Right files nReduce (.out j) content := fun j hj =>
    h.pool.read ((h.reduces_performed hdone hj).outputs _ (List.mem_singleton_self _))
  have hgroups : Groups KeyValue.key KeyValue.value app.reducef (files.flatMap (pairsOf app.mapf app.input))
      ((List.range nReduce).flatMap (recordsOf s.pool.fs)) := by
    refine Groups.split (bucket nReduce) (fun key => Nat.mod_lt _ hn) fun j hj => ?_
    obtain ⟨content, hread, kvs, hkvs, rfl⟩ := hout j hj
    rw [recordsOf, hread, Option.map_some, Option.getD_some, records_lines, reduceLoop_eq, List.drop_zero]
    exact (groups_sorted hreducef kvs).perm hreducef hkvs
  have hseq : sequential app.mapf app.reducef app.sort app.input files = some ((runs KeyValue.key KeyValue.value
      app.reducef (app.sort.sort (files.flatMap (pairsOf app.mapf app.input)))).map fun r => .line r.1 r.2) := by
    have hread : ∀ filename ∈ files, (app.input filename).isSome := (h.reduces_performed hdone hn).inputs
    rw [sequential, mapAll_eq hread, Option.map_some, reduceLoop_eq, List.drop_zero]
  refine ⟨_, hseq, fun j hj => ?_, ?_, hgroups⟩
  · obtain ⟨content, hread, -⟩ := hout j hj
    rw [hread]
    rfl
  · rw [records_lines]
    exact hgroups.unique (groups_sorted hreducef _)

end Cluster

open Cluster

section Output
variable {app : App} {files : List String} {nReduce : Nat} {s : Cluster}

/-- In every run that opens temporary files exclusively and completes no task for the second time, whatever crashes: a
    final file holds what is right for it from the moment it is there, a completed task has all its output files, and
    when `Done` holds, the records of the output files are those of the sequential program. -/
theorem cluster_output (hn : 0 < nReduce) (h : Reachable app files nReduce Guarded s) :
    (∀ o content, s.pool.fs.read (.final o) = some content → app.Right files nReduce o content) ∧
    (∀ kind i task, (s.job.master.tasks kind)[i]? = some task → task.state = .completed →
      ∀ o ∈ (⟨kind, i⟩ : ResponseArgs).outputs nReduce, (s.pool.fs.read (.final o)).isSome) ∧
    ((∀ key vs vs', vs.Perm vs' → app.reducef key vs = app.reducef key vs') → s.job.master.done = true →
      ∃ cells, sequential app.mapf app.reducef app.sort app.input files = some cells ∧
        (∀ j < nReduce, (s.pool.fs.read (.final (.out j))).isSome) ∧
        ((List.range nReduce).flatMap (recordsOf s.pool.fs)).Perm (records cells)) := by
  have hinv := h.inv hn
  refine ⟨fun o content hread => ?_, fun kind i task htask hc o ho => ?_, fun hreducef hdone => ?_⟩
  · exact hinv.right hread
  · have hname := (hinv.completed kind i task htask hc).outputs o ho
    rw [FS.read, Option.isSome_map]
    exact hname
  · obtain ⟨cells, hseq, hout, hperm, -⟩ := hinv.output hn hreducef hdone
    exact ⟨cells, hseq, hout, hperm⟩

end Output

instance (s : Cluster) (a : Action) : Decidable (s.Guarded a) :=
  match a with
  | .master a => inferInstanceAs (Decidable (Job.FirstReport s.job a))
  | .operate k =>
    match h : s.stages k with
    | .publishing e => decidable_of_iff (s.pool.Exclusive (.step e)) (by simp only [Guarded, h])
    | .replied => isTrue (by simp only [Guarded, h])
    | .gathering _ _ => isTrue (by simp only [Guarded, h])
    | .done => isTrue (by simp only [Guarded, h])
  | .perform _ _ | .gather _ | .finish _ | .crash _ => isTrue trivial

/-- Insertion sort, which is fast enough for two pairs. -/
def insertionSortByKey : SortByKey where
  sort kva := kva.insertionSort fun a b => a.key ≤ b.key
  perm kva := List.perm_insertionSort _ kva
  sorted kva := by
    have : Std.Total fun a b : KeyValue => a.key ≤ b.key := ⟨fun a b => le_total a.key b.key⟩
    have : IsTrans KeyValue fun a b => a.key ≤ b.key := ⟨fun a b c => le_trans⟩
    exact (List.pairwise_insertionSort _ kva).imp fun h => not_lt.mpr h

/-- One pair of each file, whose values are counted. -/
def onePair : App where
  mapf _ content := [⟨content, "1"⟩]
  reducef _ values := toString values.length
  sort := insertionSortByKey
  input filename := some filename

/-- The map task is handed out for the second time before its first worker begins. The second worker performs and reports
    it, and the first one performs it again while the pair is reduced. -/
def mappedTwice (kv : KeyValue) : List Cluster.Action :=
  [.master .ask, .master (.scan 0), .master (.tick (10 * second)), .master (.wait 0), .master .ask, .master (.scan 0),
    .perform 1 [kv], .operate 1, .operate 1, .operate 1, .operate 1, .finish 1, .master (.check 0), .master (.complete 0),
    .master (.decrement 0), .perform 0 [kv], .operate 0, .operate 0, .master .ask, .master (.scan 0), .perform 2 [],
    .gather 2, .operate 0, .operate 0, .gather 2, .operate 2, .operate 2, .operate 2, .operate 2, .finish 2,
    .master (.check 0), .master (.complete 0), .master (.decrement 0)]

theorem cluster_output_mapped_twice : ∃ (s : Cluster) (cells : List Cell), s.job.master.done = true ∧
    sequential onePair.mapf onePair.reducef onePair.sort onePair.input ["cat"] = some cells ∧
    ((List.range 1).flatMap (recordsOf s.pool.fs)).Perm (records cells) := by
  obtain ⟨s, hs, hdone⟩ := Run.exec_any (step onePair) Guarded (init ["cat"] 1 0) (mappedTwice ⟨"cat", "1"⟩)
    (fun s => s.job.master.done) (by decide +kernel)
  obtain ⟨cells, hseq, -, hperm⟩ := (cluster_output (by decide) ⟨0, Run.exec_steps hs⟩).2.2
    (fun _ _ _ h => congrArg toString h.length_eq) hdone
  exact ⟨s, cells, hdone, hseq, hperm⟩

end DistributedLabs.MapReduce
