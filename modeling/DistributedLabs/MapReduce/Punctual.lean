import DistributedLabs.MapReduce.ClusterOutput

/-! Ten seconds. If every `wait` that gives a task up does so after the worker of the task has crashed or failed, a task
    is at any time in the hands of one worker or of one report at most. Then temporary files are opened exclusively and
    no report completes a task for the second time, whatever crashes. -/

namespace DistributedLabs.MapReduce

open FileSystem Publication Grouping

/-- The report of the task has not completed it yet. -/
def Response.unsettled (args : ResponseArgs) (r : Response) : Bool := r.args = args ∧ r.stage ≠ .completed

/-- No two tasks have an output in common. -/
theorem ResponseArgs.eq_of_output {nReduce : Nat} {args args' : ResponseArgs} {o : Output}
    (h : o ∈ args.outputs nReduce) (h' : o ∈ args'.outputs nReduce) : args = args' := by
  obtain ⟨kind, index⟩ := args
  obtain ⟨kind', index'⟩ := args'
  cases kind <;> cases kind' <;> simp only [ResponseArgs.outputs, List.mem_map, List.mem_singleton] at h h'
  · obtain ⟨j, -, rfl⟩ := h
    obtain ⟨j', -, heq⟩ := h'
    cases heq
    rfl
  · obtain ⟨j, -, rfl⟩ := h
    cases h'
  · subst h
    obtain ⟨j', -, heq⟩ := h'
    cases heq
  · subst h
    cases h'
    rfl

/-- The number of cells of a file. -/
def App.size (app : App) (files : List String) (nReduce : Nat) : Output → Nat
  | .inter i j => (inBucket nReduce j (pairsAt app.mapf app.input files i)).length
  | .out j => (reduceLoop app.reducef
      (app.sort.sort (inBucket nReduce j (files.flatMap (pairsOf app.mapf app.input)))) 0).length

/-- Whatever the order of the pairs, a file has the same number of cells. -/
theorem right_size {app : App} {files : List String} {nReduce : Nat} {o : Output} {content : List Cell}
    (hreducef : ∀ key vs vs', vs.Perm vs' → app.reducef key vs = app.reducef key vs')
    (h : app.Right files nReduce o content) : content.length = app.size files nReduce o := by
  cases o with
  | inter i j =>
    obtain ⟨filename, text, kvs, hfile, hread, hperm, rfl⟩ := h
    have hpairs : pairsAt app.mapf app.input files i = app.mapf filename text := by
      simp [pairsAt, hfile, pairsOf, hread]
    rw [List.length_map, App.size, hpairs]
    exact (inBucket_perm hperm).length_eq
  | out j =>
    obtain ⟨kvs, hperm, rfl⟩ := h
    rw [List.length_map, App.size, reduceLoop_eq, reduceLoop_eq, List.drop_zero, List.drop_zero]
    exact (((groups_sorted hreducef kvs).perm hreducef hperm).unique (groups_sorted hreducef _)).length_eq

namespace Cluster

/-- The worker with the `k`-th reply has the task and is not through with it. -/
def Live (s : Cluster) (args : ResponseArgs) (k : Nat) : Prop :=
  s.stages k ≠ .done ∧ ∃ b ∈ s.job.assignments[k]?, b.reply.response = some args

instance (s : Cluster) (args : ResponseArgs) (k : Nat) : Decidable (s.Live args k) :=
  inferInstanceAs (Decidable (_ ∧ _))

/-- The reports of the task that are being handled and have not completed it. -/
def unsettled (s : Cluster) (args : ResponseArgs) : Nat := s.job.responses.countP (Response.unsettled args)

/-- A `wait` gives a task up only when no worker is at it any more and no report of it is being handled. -/
def Punctual (s : Cluster) : Action → Prop
  | .master (.wait k) => ∀ w ∈ s.job.waits[k]?, ∀ task ∈ (s.job.master.tasks w.kind)[w.index]?,
      task.state ≠ .completed →
        (∀ k < s.job.assignments.length, ¬ s.Live ⟨w.kind, w.index⟩ k) ∧ s.unsettled ⟨w.kind, w.index⟩ = 0
  | _ => True

instance (s : Cluster) (a : Action) : Decidable (s.Punctual a) :=
  match a with
  | .master (.wait _) => inferInstanceAs (Decidable (∀ w ∈ _, ∀ task ∈ _, _))
  | .master (.tick _) | .master .ask | .master (.scan _) | .master (.report _) | .master (.check _)
  | .master (.complete _) | .master (.decrement _) => inferInstanceAs (Decidable True)
  | .perform _ _ | .gather _ | .operate _ | .finish _ | .crash _ => inferInstanceAs (Decidable True)

/-! ### Who has a task -/

/-- One worker or one report has the task, and then it is in progress. -/
structure Claimed (s : Cluster) (args : ResponseArgs) : Prop where
  unique : ∀ k k', s.Live args k → s.Live args k' → k = k'
  apart : ∀ k, s.Live args k → s.unsettled args = 0
  once : s.unsettled args ≤ 1
  busy : ∀ task, (s.job.master.tasks args.kind)[args.index]? = some task →
    (∃ k, s.Live args k) ∨ 0 < s.unsettled args → task.state = .inProgress

section Claimed
variable {app : App} {s s' : Cluster} {a : Action} {args : ResponseArgs}

/-- Nobody has the task. -/
theorem claimed_none (hlive : ∀ k, ¬ s.Live args k) (hnone : s.unsettled args = 0) : s.Claimed args := by
  refine ⟨fun k _ hk => absurd hk (hlive k), fun k hk => absurd hk (hlive k), hnone ▸ Nat.zero_le 1, fun task _ h => ?_⟩
  rcases h with ⟨k, hk⟩ | hpos
  · exact absurd hk (hlive k)
  · rw [hnone] at hpos
    cases hpos

/-- A task that is not in progress is nobody's. -/
theorem Claimed.free (h : s.Claimed args) {task : Task}
    (htask : (s.job.master.tasks args.kind)[args.index]? = some task) (hstate : task.state ≠ .inProgress) :
    (∀ k, ¬ s.Live args k) ∧ s.unsettled args = 0 := by
  refine ⟨fun k hk => hstate (h.busy task htask (Or.inl ⟨k, hk⟩)), ?_⟩
  by_contra hne
  exact hstate (h.busy task htask (Or.inr (Nat.pos_of_ne_zero hne)))

/-- Nobody takes the task up. -/
theorem Claimed.mono (h : s.Claimed args) (hlive : ∀ k, s'.Live args k → s.Live args k)
    (hle : s'.unsettled args ≤ s.unsettled args)
    (htasks : (s'.job.master.tasks args.kind)[args.index]? = (s.job.master.tasks args.kind)[args.index]?) :
    s'.Claimed args := by
  refine ⟨fun k k' hk hk' => h.unique k k' (hlive k hk) (hlive k' hk'), fun k hk => ?_, Nat.le_trans hle h.once,
    fun task htask hhas => h.busy task (htasks ▸ htask) ?_⟩
  · exact Nat.le_zero.mp (h.apart k (hlive k hk) ▸ hle)
  · exact hhas.imp (fun ⟨k, hk⟩ => ⟨k, hlive k hk⟩) fun hpos => Nat.lt_of_lt_of_le hpos hle

theorem Live.reply {k : Nat} (h : s'.Live args k) (hstage : s.stages k = .done → s'.stages k = .done)
    (hreply : ∀ b', s'.job.assignments[k]? = some b' → ∃ b, s.job.assignments[k]? = some b ∧ b.reply = b'.reply) :
    s.Live args k := by
  obtain ⟨hst, b', hb', hargs⟩ := h
  obtain ⟨b, hb, heq⟩ := hreply b' hb'
  exact ⟨fun hdone => hst (hstage hdone), b, hb, heq ▸ hargs⟩

/-- `HandleAsk` hands out a task that is nobody's. -/
theorem Claimed.handOut (h : s.Claimed args) {k : Nat} {ask : Ask} {task : Task}
    (htask : (s.job.master.tasks ask.kind)[ask.next]? = some task) (hidle : task.state = .idle) :
    (s.setJob (s.job.handOut k ask task)).Claimed args := by
  -- The new reply is the last one.
  have before : ∀ {k'}, (s.setJob (s.job.handOut k ask task)).Live args k' →
      s.Live args k' ∨ (k' = s.job.assignments.length ∧ args = ⟨ask.kind, ask.next⟩) := by
    rintro k' ⟨hst, b, hb, hargs⟩
    rcases Table.getElem?_append_inv hb with hb' | ⟨hle, hb'⟩
    · exact Or.inl ⟨hst, b, hb', hargs⟩
    · have hlt := (List.getElem?_eq_some_iff.mp hb).1
      rw [setJob_job, Job.handOut_assignments, List.length_append, List.length_singleton] at hlt
      rw [List.mem_singleton.mp hb'] at hargs
      simp only [AskReply.response, Master.reply_kind, Master.reply_index, Option.map_some, Option.some.injEq] at hargs
      exact Or.inr ⟨by omega, hargs.symm⟩
  by_cases hargs : args = ⟨ask.kind, ask.next⟩
  · subst hargs
    obtain ⟨hnone, hzero⟩ := h.free htask (by rw [hidle]; simp)
    have last : ∀ {k'}, (s.setJob (s.job.handOut k ask task)).Live _ k' → k' = s.job.assignments.length :=
      fun hk => ((before hk).resolve_left (hnone _)).1
    refine ⟨fun _ _ hk hk' => (last hk).trans (last hk').symm, fun _ _ => hzero, hzero ▸ Nat.zero_le 1,
      fun task' htask' _ => ?_⟩
    rw [setJob_job, Job.handOut_master, Master.tasks_setTask_self htask] at htask'
    cases htask'
    rfl
  · refine h.mono (fun k' hk => (before hk).resolve_right fun hnew => hargs hnew.2) (Nat.le_refl _) ?_
    exact Master.tasks_setTask_ne fun heq => hargs (by rw [heq.1, heq.2])

/-- A `wait` is over. -/
theorem Claimed.expire (h : s.Claimed args) {k : Nat} {w : Wait} {task : Task} (hp : s.Punctual (.master (.wait k)))
    (hw : s.job.waits[k]? = some w) (htask : (s.job.master.tasks w.kind)[w.index]? = some task) :
    (s.setJob (s.job.expire k w task)).Claimed args := by
  by_cases hargs : args = ⟨w.kind, w.index⟩
  · subst hargs
    have hfree : (∀ k, ¬ s.Live ⟨w.kind, w.index⟩ k) ∧ s.unsettled ⟨w.kind, w.index⟩ = 0 := by
      by_cases hc : task.state = .completed
      · exact h.free htask (by rw [hc]; simp)
      · obtain ⟨hlive, hzero⟩ := hp w hw task htask hc
        refine ⟨fun k' hk' => hlive k' ?_ hk', hzero⟩
        obtain ⟨-, b, hb, -⟩ := hk'
        exact (List.getElem?_eq_some_iff.mp hb).1
    exact claimed_none hfree.1 hfree.2
  · refine h.mono (fun k' hk => hk) (Nat.le_refl _) ?_
    exact Master.tasks_setTask_ne fun heq => hargs (by rw [heq.1, heq.2])

/-- A report completes its task, which is then nobody's. -/
theorem Claimed.complete (h : s.Claimed args) {k : Nat} {r : Response} {task : Task} (hr : s.job.responses[k]? = some r)
    (hst : r.stage = .accepted) : (s.setJob (s.job.complete k r task)).Claimed args := by
  have hcount : (s.setJob (s.job.complete k r task)).unsettled args + (r.unsettled args).toNat = s.unsettled args := by
    have hset := Table.countP_set_add (Response.unsettled args) ⟨r.args, r.now, .completed⟩ hr
    rwa [show Response.unsettled args ⟨r.args, r.now, .completed⟩ = false by simp [Response.unsettled]] at hset
  by_cases hargs : args = r.args
  · have hone : r.unsettled args = true := by simp [Response.unsettled, hargs, hst]
    have hle := h.once
    rw [hone, Bool.toNat_true] at hcount
    refine claimed_none (fun k' hk => ?_) (by omega)
    have := h.apart k' hk
    omega
  · refine h.mono (fun k' hk => hk) (Nat.le.intro hcount) ?_
    exact Master.tasks_setTask_ne fun heq => hargs (show (⟨args.kind, args.index⟩ : ResponseArgs) = r.args by
      rw [← heq.1, ← heq.2])

theorem Claimed.master (h : s.Claimed args) {b : Job.Action} {job : Job} (hp : s.Punctual (.master b))
    (hno : b.isReport = false) (hj : Job.Stepped s.job b job) : (s.setJob job).Claimed args := by
  cases hj with
  | handOut _ htask _ hidle => exact h.handOut htask hidle
  | expire hw _ _ htask => exact h.expire hp hw htask
  | complete hr hst => exact h.complete hr hst
  | report => cases hno
  | @accept k r _ hr hst =>
    refine h.mono (fun k' hk => hk) (Nat.le_of_eq ?_) rfl
    have hset := Table.countP_set_add (Response.unsettled args) ⟨r.args, r.now, .accepted⟩ hr
    rw [show Response.unsettled args ⟨r.args, r.now, .accepted⟩ = r.unsettled args by simp [Response.unsettled, hst]] at hset
    exact Nat.add_right_cancel hset
  | ignore hr => exact h.mono (fun k' hk => hk) (Nat.le.intro (Table.countP_eraseIdx_add _ hr)) rfl
  | decrement hr =>
    refine h.mono (fun k' hk => hk) (Nat.le.intro (Table.countP_eraseIdx_add _ hr)) ?_
    rw [setJob_job, Job.decrement_master, Master.tasks_decrement]
  | _ => exact h.mono (fun k' hk => hk) (Nat.le_refl _) rfl

/-- The worker of a task turns into its report. -/
theorem Claimed.reported (h : s.Claimed args) {k : Nat} {job : Job} (hst : s.stages k ≠ .done)
    (hj : Job.Stepped s.job (.report k) job) : (s.report k job).Claimed args := by
  cases hj with
  | @report _ b args₀ hb hargs₀ =>
    have live : ∀ {k'}, (s.report k (s.job.report k b args₀)).Live args k' → k' ≠ k ∧ s.Live args k' := by
      rintro k' ⟨hst', b', hb', hargs'⟩
      have hne : k' ≠ k := by
        rintro rfl
        exact hst' (Function.update_self ..)
      rw [report_stages, Function.update_of_ne hne] at hst'
      refine ⟨hne, hst', b', ?_, hargs'⟩
      rcases Table.getElem?_set_inv hb' with ⟨heq, -⟩ | ⟨-, hb'⟩
      · exact absurd heq hne
      · exact hb'
    have hcount : (s.report k (s.job.report k b args₀)).unsettled args =
        s.unsettled args + (decide (args₀ = args)).toNat := by
      have happend := Table.countP_concat (Response.unsettled args) ⟨args₀, s.job.clock, .received⟩ s.job.responses
      rwa [show Response.unsettled args ⟨args₀, s.job.clock, .received⟩ = decide (args₀ = args) by
        simp [Response.unsettled]] at happend
    by_cases hargs : args₀ = args
    · subst hargs
      have hk : s.Live args₀ k := ⟨hst, b, hb, hargs₀⟩
      rw [h.apart k hk, decide_eq_true rfl] at hcount
      refine ⟨fun k₁ k₂ h₁ => ?_, fun k₁ h₁ => ?_, Nat.le_of_eq hcount, fun task htask _ => h.busy task htask (Or.inl ⟨k, hk⟩)⟩
      · exact absurd (h.unique k₁ k (live h₁).2 hk) (live h₁).1
      · exact absurd (h.unique k₁ k (live h₁).2 hk) (live h₁).1
    · rw [decide_eq_false hargs, Bool.toNat_false, Nat.add_zero] at hcount
      exact h.mono (fun k' hk => (live hk).2) (Nat.le_of_eq hcount) rfl

/-- A worker that is through with its reply stays so. -/
theorem Stepped.done_stays (h : Stepped app s a s') {k : Nat} (hk : s.stages k = .done) : s'.stages k = .done := by
  have update : ∀ {k' stage}, (k' = k → stage = .done) → Function.update s.stages k' stage k = .done := by
    intro k' stage hstage
    rw [Function.update_apply]
    split
    · rename_i heq
      exact hstage heq.symm
    · exact hk
  have other : ∀ {k' stage stage'}, s.stages k' = stage → stage ≠ .done → Function.update s.stages k' stage' k = .done :=
    fun hst hne => update fun heq => absurd (hst ▸ heq ▸ hk) hne
  cases h with
  | master => exact hk
  | operated => exact hk
  | ended => exact update fun _ => rfl
  | failed => exact update fun _ => rfl
  | reported => exact update fun _ => rfl
  | crashed => exact update fun _ => rfl
  | mapped _ hst => exact other hst (by simp)
  | gathering _ hst => exact other hst (by simp)
  | gathered _ hst => exact other hst (by simp)
  | reduced _ hst => exact other hst (by simp)

theorem Claimed.step (h : s.Claimed args) (hp : s.Punctual a) (hs : Stepped app s a s') : s'.Claimed args := by
  have kept : s'.job = s.job → s'.Claimed args := by
    intro hjob
    refine h.mono (fun k hk => hk.reply hs.done_stays fun b' hb' => ⟨b', hjob ▸ hb', rfl⟩) ?_ ?_
    · rw [unsettled, hjob, unsettled]
    · rw [hjob]
  cases hs with
  | master hno hj => exact h.master hp hno hj
  | reported hst _ _ _ hj => exact h.reported (by rw [hst]; simp) hj
  | _ => exact kept rfl

theorem claimed_init (files : List String) (nReduce now : Nat) (args : ResponseArgs) :
    (init files nReduce now).Claimed args := by
  refine claimed_none (fun k hk => ?_) rfl
  obtain ⟨-, b, hb, -⟩ := hk
  cases hb

end Claimed

/-! ### Open files -/

/-- An execution that has a file open is that of a worker. -/
def Owned (s : Cluster) : Prop :=
  ∀ (e : Nat) x, s.pool.executions[e]? = some x → x.alive = true → x.process.file ≠ none → ∃ k, s.stages k = .publishing e

section Owned
variable {app : App} {files : List String} {nReduce : Nat} {s s' : Cluster} {a : Action}

/-- A worker that has no file open goes on to another stage. -/
theorem Owned.update (h : s.Owned) {k : Nat} {stage : Stage} (hpool : s'.pool = s.pool)
    (hstages : s'.stages = Function.update s.stages k stage)
    (hclosed : ∀ (e : Nat) x, s.stages k = .publishing e → s.pool.executions[e]? = some x → x.alive = true →
      x.process.file = none) : s'.Owned := by
  intro e x hx halive hfile
  rw [hpool] at hx
  obtain ⟨k', hk'⟩ := h e x hx halive hfile
  refine ⟨k', ?_⟩
  rw [hstages, Function.update_of_ne, hk']
  rintro rfl
  exact hfile (hclosed e x hk' hx halive)

theorem Owned.publish (h : s.Owned) {k : Nat} {outputs : List (Output × List (List Cell))}
    (hst : ∀ e, s.stages k ≠ .publishing e) : (s.publish k outputs).Owned := by
  intro e x hx halive hfile
  rcases Table.getElem?_append_inv hx with hx | ⟨-, hx⟩
  · obtain ⟨k', hk'⟩ := h e x hx halive hfile
    refine ⟨k', ?_⟩
    rw [publish_stages, Function.update_of_ne, hk']
    rintro rfl
    exact hst e hk'
  · cases List.mem_singleton.mp hx
    exact absurd rfl hfile

theorem Owned.step (h : s.Owned) (hpool : s.pool.Sound) (hs : Stepped app s a s') : s'.Owned := by
  -- The file of an execution without operations is closed.
  have closed : ∀ {k e x}, s.stages k = .publishing e → s.pool.executions[e]? = some x → x.process.todo = [] →
      ∀ (e' : Nat) y, s.stages k = .publishing e' → s.pool.executions[e']? = some y → y.alive = true →
        y.process.file = none := by
    intro k e x hst hx htodo e' y hst' hy halive
    rw [hst] at hst'
    cases hst'
    rw [hx] at hy
    cases hy
    exact (hpool.stages e x hx halive).ended htodo
  cases hs with
  | master => exact h
  | ended _ hst => exact h.update rfl rfl fun e _ hst' => absurd hst' (hst e)
  | gathering _ hst =>
    refine h.update rfl rfl fun e _ hst' => ?_
    rw [hst] at hst'
    cases hst'
  | gathered _ hst =>
    refine h.update rfl rfl fun e _ hst' => ?_
    rw [hst] at hst'
    cases hst'
  | mapped _ hst => exact h.publish fun e he => by rw [hst] at he; cases he
  | reduced _ hst => exact h.publish fun e he => by rw [hst] at he; cases he
  | failed hst hx htodo => exact h.update rfl rfl (closed hst hx htodo)
  | reported hst hx htodo => exact h.update rfl rfl (closed hst hx htodo)
  | @operated k e pool hst hp =>
    cases hp with
    | advance =>
      intro e' x hx halive hfile
      rcases Table.getElem?_set_inv hx with ⟨rfl, -⟩ | ⟨-, hx⟩
      · exact ⟨k, hst⟩
      · exact h e' x hx halive hfile
  | @crashed k e y hst hy =>
    intro e' x hx halive hfile
    rcases Table.getElem?_set_inv hx with ⟨-, rfl⟩ | ⟨hne, hx⟩
    · cases halive
    · obtain ⟨k', hk'⟩ := h e' x hx halive hfile
      refine ⟨k', ?_⟩
      rw [crash_stages, Function.update_of_ne, hk']
      rintro rfl
      rw [hst] at hk'
      cases hk'
      exact hne rfl

end Owned

/-! ### Punctual runs are guarded -/

section Punctual
variable {app : App} {files : List String} {nReduce : Nat} {s s' : Cluster} {a : Action}

/-- The job is in order, nobody shares a task or a file, and no temporary file is too long. -/
structure Orderly (app : App) (files : List String) (nReduce : Nat) (s : Cluster) : Prop where
  inv : Inv app files nReduce s
  claimed : ∀ args, s.Claimed args
  owned : s.Owned
  fits : s.pool.Fits (app.size files nReduce)

theorem orderly_init (now : Nat) : Orderly app files nReduce (init files nReduce now) where
  inv := inv_init now
  claimed := claimed_init files nReduce now
  owned e x hx := by cases hx
  fits o inode hn := by cases hn

/-- Workers that publish at once have no output in common. -/
theorem Orderly.outputs_apart (h : Orderly app files nReduce s) {k k' e e' : Nat} {x y : Execution Output Cell}
    (hst : s.stages k = .publishing e) (hst' : s.stages k' = .publishing e') (hx : s.pool.executions[e]? = some x)
    (hy : s.pool.executions[e']? = some y) (hne : e' ≠ e) {o : Output} (ho : o ∈ x.outputs.map Prod.fst) :
    o ∉ y.outputs.map Prod.fst := by
  intro ho'
  have hw := h.inv.working k
  have hw' := h.inv.working k'
  rw [hst] at hw
  rw [hst'] at hw'
  obtain ⟨b, args, x', hb, hargs, hx', -, houts⟩ := hw
  obtain ⟨b', args', y', hb', hargs', hy', -, houts'⟩ := hw'
  rw [hx] at hx'
  cases hx'
  rw [hy] at hy'
  cases hy'
  -- The output tells the task, and the task its only worker.
  have heq := ResponseArgs.eq_of_output ((houts o).mp ho) ((houts' o).mp ho')
  subst heq
  have hk := (h.claimed args).unique k k' ⟨by rw [hst]; simp, b, hb, hargs⟩ ⟨by rw [hst']; simp, b', hb', hargs'⟩
  subst hk
  rw [hst] at hst'
  cases hst'
  exact hne rfl

theorem Orderly.firstReport (h : Orderly app files nReduce s) {b : Job.Action} {job : Job}
    (hj : Job.Stepped s.job b job) : Job.FirstReport s.job b := by
  intro task htask
  cases hj with
  | @complete k r task' hr hst _ htask' =>
    simp only [Job.Action.completes, hr, htask', Option.mem_some_iff] at htask
    subst htask
    have hpos : 0 < s.unsettled r.args :=
      List.countP_pos_iff.mpr ⟨r, List.mem_of_getElem? hr, by simp [Response.unsettled, hst]⟩
    rw [(h.claimed r.args).busy task' htask' (Or.inr hpos)]
    simp
  | _ => cases htask

theorem Orderly.guarded (h : Orderly app files nReduce s)
    (hreducef : ∀ key vs vs', vs.Perm vs' → app.reducef key vs = app.reducef key vs') (hs : Stepped app s a s') :
    s.Guarded a := by
  cases hs with
  | master _ hj => exact h.firstReport hj
  | @operated k e pool hst hp =>
    simp only [Guarded, hst]
    cases hp with
    | advance hx halive =>
      refine h.fits.exclusive h.inv.pool (fun o content => right_size hreducef) hx halive ?_
      intro e' y hy hne hay hfile o ho
      obtain ⟨k', hst'⟩ := h.owned e' y hy hay hfile
      exact h.outputs_apart hst hst' hx hy hne ho
  | ended ha =>
    rcases ha with ⟨mapRes, rfl⟩ | rfl | rfl
    · trivial
    · trivial
    · trivial
  | _ => trivial

theorem Orderly.step (h : Orderly app files nReduce s) (hn : 0 < nReduce)
    (hreducef : ∀ key vs vs', vs.Perm vs' → app.reducef key vs = app.reducef key vs') (hp : s.Punctual a)
    (hs : Stepped app s a s') : Orderly app files nReduce s' := by
  refine ⟨h.inv.step hn (h.guarded hreducef hs) hs, fun args => (h.claimed args).step hp hs,
    h.owned.step h.inv.pool.sound hs, ?_⟩
  rcases hs.pool with hsame | ⟨_, hstep⟩
  · rw [hsame]
    exact h.fits
  · exact h.fits.step h.inv.pool (fun o content => right_size hreducef) hstep

theorem Reachable.orderly (hn : 0 < nReduce)
    (hreducef : ∀ key vs vs', vs.Perm vs' → app.reducef key vs = app.reducef key vs')
    (h : Reachable app files nReduce Punctual s) : Orderly app files nReduce s := by
  obtain ⟨now, h⟩ := h
  exact Run.Steps.keeps (fun s s' a hi ha hs => hi.step hn hreducef ha (step_inv hs)) h (orderly_init now)

end Punctual

end Cluster

open Cluster

section Output
variable {app : App} {files : List String} {nReduce : Nat} {s : Cluster}

/-- A run in which each `wait` that gives a task up does so after its worker has crashed or failed opens temporary files
    exclusively and completes no task for the second time. So when `Done` holds, all output files are there and their
    records are those of the sequential program. -/
theorem punctual_output (hn : 0 < nReduce)
    (hreducef : ∀ key vs vs', vs.Perm vs' → app.reducef key vs = app.reducef key vs')
    (h : Reachable app files nReduce Punctual s) :
    Reachable app files nReduce Guarded s ∧
    (s.job.master.done = true → ∃ cells, sequential app.mapf app.reducef app.sort app.input files = some cells ∧
      (∀ j < nReduce, (s.pool.fs.read (.final (.out j))).isSome) ∧
      ((List.range nReduce).flatMap (recordsOf s.pool.fs)).Perm (records cells)) := by
  constructor
  · obtain ⟨now, h⟩ := h
    refine ⟨now, h.mono_reached fun s₁ s₂ a hs _ hstep => ?_⟩
    exact (Reachable.orderly hn hreducef ⟨now, hs⟩).guarded hreducef (step_inv hstep)
  · intro hdone
    obtain ⟨cells, hseq, hout, hperm, -⟩ := (h.orderly hn hreducef).inv.output hn hreducef hdone
    exact ⟨cells, hseq, hout, hperm⟩

end Output

/-- The worker of the only map task crashes after its first pair. After 10 seconds another one performs the task, with its
    pairs in the other order, and a third one the only reduce task. -/
def crashedWorker (kv kv' : KeyValue) : List Cluster.Action :=
  [.master .ask, .master (.scan 0), .perform 0 [kv, kv'], .operate 0, .operate 0, .crash 0,
    .master (.tick (10 * second)), .master (.wait 0), .master .ask, .master (.scan 0), .perform 1 [kv', kv],
    .operate 1, .operate 1, .operate 1, .operate 1, .operate 1, .finish 1, .master (.check 0), .master (.complete 0),
    .master (.decrement 0), .master .ask, .master (.scan 0), .perform 2 [], .gather 2, .gather 2, .operate 2, .operate 2,
    .operate 2, .operate 2, .operate 2, .finish 2, .master (.check 0), .master (.complete 0), .master (.decrement 0)]

/-- Two pairs of one file, whose values are counted. -/
def twoPairs : App where
  mapf _ content := [⟨content, "1"⟩, ⟨"the", "1"⟩]
  reducef _ values := toString values.length
  sort := insertionSortByKey
  input filename := some filename

theorem punctual_output_crashed_worker : ∃ (s : Cluster) (cells : List Cell), s.job.master.done = true ∧
    sequential twoPairs.mapf twoPairs.reducef twoPairs.sort twoPairs.input ["cat"] = some cells ∧
    ((List.range 1).flatMap (recordsOf s.pool.fs)).Perm (records cells) := by
  obtain ⟨s, hs, hdone⟩ := Run.exec_any (step twoPairs) Punctual (init ["cat"] 1 0)
    (crashedWorker ⟨"cat", "1"⟩ ⟨"the", "1"⟩) (fun s => s.job.master.done) (by decide +kernel)
  obtain ⟨cells, hseq, -, hperm⟩ := (punctual_output (by decide) (fun _ _ _ h => congrArg toString h.length_eq)
    ⟨0, Run.exec_steps hs⟩).2 hdone
  exact ⟨s, cells, hdone, hseq, hperm⟩

end DistributedLabs.MapReduce
