import DistributedLabs.MapReduce.Master
import DistributedLabs.Lib.Table

/-! The counters of the master. A task that is completed stays so, and `map_remain` and `reduce_remain` are the
    numbers of tasks that are not completed or completed and not yet counted, as long as no report completes a task
    for the second time. -/

namespace DistributedLabs.MapReduce

open Table

/-! ### Tasks that are not completed -/

def Task.unfinished (task : Task) : Bool := task.state ≠ .completed

theorem Task.unfinished_wait (task : Task) : task.wait.unfinished = task.unfinished := by
  unfold Task.wait
  split
  · rfl
  · rename_i h
    simp [unfinished, h]

theorem Task.unfinished_handOut {task : Task} (h : task.state = .idle) (now : Nat) :
    (task.handOut now).unfinished = task.unfinished := by
  simp [unfinished, h]

namespace Master

variable {m : Master} {kind : Kind} {i : Nat} {task task' : Task}

/-- The number of tasks of a kind that are not completed. -/
def unfinished (m : Master) (kind : Kind) : Nat := (m.tasks kind).countP Task.unfinished

theorem unfinished_eq_zero : m.unfinished kind = 0 ↔ ∀ task ∈ m.tasks kind, task.state = .completed := by
  simp [unfinished, Task.unfinished, List.countP_eq_zero]

theorem unfinished_setTask (h : (m.tasks kind)[i]? = some task) (hsame : task'.unfinished = task.unfinished)
    (kind' : Kind) : (m.setTask kind i task').unfinished kind' = m.unfinished kind' := by
  rw [unfinished, tasks_setTask]
  split
  · rename_i hk
    subst hk
    have := countP_set_add Task.unfinished task' h
    rw [hsame] at this
    exact Nat.add_right_cancel this
  · rfl

theorem unfinished_complete (h : (m.tasks kind)[i]? = some task) (kind' : Kind) :
    (m.setTask kind i task.complete).unfinished kind' + (if kind' = kind then task.unfinished.toNat else 0) =
      m.unfinished kind' := by
  rw [unfinished, tasks_setTask]
  split
  · rename_i hk
    subst hk
    exact countP_set_add Task.unfinished task.complete h
  · rfl

end Master

/-- The report completed a task of this kind and has not counted it yet. -/
def Response.uncounted (kind : Kind) (r : Response) : Bool := kind = r.args.kind ∧ r.stage = .completed

theorem Response.uncounted_of_completed {r : Response} (h : r.stage = .completed) (kind : Kind) :
    (r.uncounted kind).toNat = if kind = r.args.kind then 1 else 0 := by
  by_cases hk : kind = r.args.kind <;> simp [uncounted, h, hk]

theorem Response.uncounted_of_ne {r : Response} (h : r.stage ≠ .completed) (kind : Kind) :
    r.uncounted kind = false := by
  simp [uncounted, h]

namespace Job

variable {s s' : Job} {a : Action}

/-- No step makes a completed task unfinished. -/
theorem Stepped.unfinished_le (h : Stepped s a s') (kind : Kind) :
    s'.master.unfinished kind ≤ s.master.unfinished kind := by
  cases h with
  | handOut _ htask _ hidle =>
    exact Nat.le_of_eq (Master.unfinished_setTask htask (Task.unfinished_handOut hidle s.clock) kind)
  | expire _ _ _ htask => exact Nat.le_of_eq (Master.unfinished_setTask htask (Task.unfinished_wait _) kind)
  | complete _ _ _ htask => exact Nat.le.intro (Master.unfinished_complete htask kind)
  | decrement => simp [Master.unfinished]
  | _ => exact Nat.le_refl _

/-- The task that a step completes. -/
def Action.completes (s : Job) : Action → Option Task
  | .complete k =>
    match s.responses[k]? with
    | none => none
    | some r => (s.master.tasks r.args.kind)[r.args.index]?
  | _ => none

/-- A report that was found on time finds its task not completed by another report. -/
def FirstReport (s : Job) (a : Action) : Prop := ∀ task ∈ a.completes s, task.state ≠ .completed

instance : Decidable (FirstReport s a) := inferInstanceAs (Decidable (∀ task ∈ a.completes s, _))

/-- The counters count the tasks that are not completed or not yet counted; reduce tasks are looked for and handed
    out only when the map tasks are completed. -/
structure Accounts (s : Job) : Prop where
  remain : ∀ kind, s.master.remain kind = s.master.unfinished kind + s.responses.countP (Response.uncounted kind)
  asks : ∀ a ∈ s.asks, a.kind = .reduce → s.master.unfinished .map = 0
  assignments : ∀ a ∈ s.assignments, a.reply.kind = some .reduce → s.master.unfinished .map = 0

theorem accounts_init (files : List String) (nReduce now : Nat) : (init files nReduce now).Accounts where
  remain kind := by
    cases kind
    · simp [init, Master.make, Master.remain, Master.unfinished, Master.tasks, List.countP_map, Task.unfinished,
        Function.comp_def]
    · simp [init, Master.make, Master.remain, Master.unfinished, Master.tasks, List.countP_replicate,
        Task.unfinished]
  asks a ha := by cases ha
  assignments a ha := by cases ha

/-- Nothing that was counted or is to be counted changes. -/
theorem Accounts.remain_same (h : s.Accounts) {kind : Kind} (hremain : s'.master.remain kind = s.master.remain kind)
    (htasks : s'.master.unfinished kind = s.master.unfinished kind)
    (hresponses : s'.responses.countP (Response.uncounted kind) = s.responses.countP (Response.uncounted kind)) :
    s'.master.remain kind = s'.master.unfinished kind + s'.responses.countP (Response.uncounted kind) := by
  rw [hremain, htasks, hresponses]
  exact h.remain kind

theorem Accounts.remain_step (h : s.Accounts) (hfirst : FirstReport s a) (hs : Stepped s a s') (kind : Kind) :
    s'.master.remain kind = s'.master.unfinished kind + s'.responses.countP (Response.uncounted kind) := by
  cases hs with
  | handOut _ htask _ hidle =>
    exact h.remain_same (Master.remain_setTask ..)
      (Master.unfinished_setTask htask (Task.unfinished_handOut hidle s.clock) kind) rfl
  | expire _ _ _ htask =>
    exact h.remain_same (Master.remain_setTask ..) (Master.unfinished_setTask htask (Task.unfinished_wait _) kind) rfl
  | report => exact h.remain_same rfl rfl (by simp [Response.uncounted_of_ne])
  | @accept k r _ hr hst =>
    have := countP_set_add (Response.uncounted kind) ⟨r.args, r.now, .accepted⟩ hr
    exact h.remain_same rfl rfl (by simpa [Response.uncounted_of_ne, hst] using this)
  | ignore hr hst =>
    have := countP_eraseIdx_add (Response.uncounted kind) hr
    exact h.remain_same rfl rfl (by simpa [Response.uncounted_of_ne, hst] using this)
  | @complete k r task hr hst _ htask =>
    -- One task less that is not completed, and one more that is not counted.
    have hopen : task.unfinished = true := by
      simpa [Task.unfinished] using hfirst task (by simp [Action.completes, hr, htask])
    have htasks := Master.unfinished_complete htask kind
    have hresponses := countP_set_add (Response.uncounted kind) ⟨r.args, r.now, .completed⟩ hr
    rw [hopen, Bool.toNat_true] at htasks
    rw [Response.uncounted_of_ne (by simp [hst]), Response.uncounted_of_completed rfl, Bool.toNat_false] at hresponses
    have hold := h.remain kind
    rw [complete_master, complete_responses, Master.remain_setTask]
    dsimp only at hresponses
    omega
  | @decrement k r hr hst =>
    have hresponses := countP_eraseIdx_add (Response.uncounted kind) hr
    rw [Response.uncounted_of_completed hst] at hresponses
    have hold := h.remain kind
    rw [decrement_master, decrement_responses, Master.remain_decrement, Master.unfinished, Master.tasks_decrement,
      ← Master.unfinished]
    by_cases hk : kind = r.args.kind
    · rw [if_pos hk] at hresponses ⊢
      omega
    · rw [if_neg hk] at hresponses ⊢
      omega
  | _ => exact h.remain kind

theorem Accounts.step (h : s.Accounts) (hfirst : FirstReport s a) (hs : Stepped s a s') : s'.Accounts := by
  have done : s.master.unfinished .map = 0 → s'.master.unfinished .map = 0 :=
    fun h0 => Nat.le_zero.mp (h0 ▸ hs.unfinished_le .map)
  refine ⟨h.remain_step hfirst hs, fun b hb hk => done ?_, fun b hb hk => done ?_⟩
  · cases hs with
    | ask =>
      rcases List.mem_append.mp hb with hb | hb
      · exact h.asks b hb hk
      · -- The kind is chosen by `map_remain`, which counts every unfinished map task.
        cases List.mem_singleton.mp hb
        have hremain := h.remain .map
        simp only [Master.wanted, ne_eq, ite_not, ite_eq_left_iff, reduceCtorEq, imp_false, not_not] at hk
        simp only [Master.remain] at hremain
        omega
    | refuse => exact h.asks b (List.mem_of_mem_eraseIdx hb) hk
    | handOut => exact h.asks b (List.mem_of_mem_eraseIdx hb) hk
    | pass ha =>
      rcases List.mem_or_eq_of_mem_set hb with hb | rfl
      · exact h.asks b hb hk
      · exact h.asks _ (List.mem_of_getElem? ha) hk
    | _ => exact h.asks b hb hk
  · cases hs with
    | handOut ha =>
      rcases List.mem_append.mp hb with hb | hb
      · exact h.assignments b hb hk
      · cases List.mem_singleton.mp hb
        rw [Master.reply_kind] at hk
        exact h.asks _ (List.mem_of_getElem? ha) (Option.some.inj hk)
    | report ha =>
      rcases List.mem_or_eq_of_mem_set hb with hb | rfl
      · exact h.assignments b hb hk
      · exact h.assignments _ (List.mem_of_getElem? ha) hk
    | _ => exact h.assignments b hb hk

theorem Reachable.accounts {files : List String} {nReduce : Nat} (h : Reachable files nReduce FirstReport s) :
    s.Accounts := by
  obtain ⟨now, h⟩ := h
  exact Run.Steps.keeps (fun s s' a hi ha hs => hi.step ha (step_inv hs)) h (accounts_init files nReduce now)

end Job

open Job

/-- In every run in which no report completes a task for the second time: between reports the counters are the
    numbers of tasks that are not completed, reduce tasks are handed out only when all map tasks are completed, and
    `Done` holds only when all reduce tasks are. -/
theorem phase_accounting {files : List String} {nReduce : Nat} {s : Job}
    (h : Reachable files nReduce FirstReport s) :
    (s.responses = [] → s.master.mapRemain = s.master.mtasks.countP (·.state ≠ .completed) ∧
      s.master.reduceRemain = s.master.rtasks.countP (·.state ≠ .completed)) ∧
    (∀ a ∈ s.assignments, a.reply.kind = some .reduce → ∀ task ∈ s.master.mtasks, task.state = .completed) ∧
    (s.master.done = true → ∀ task ∈ s.master.rtasks, task.state = .completed) := by
  have hacc := h.accounts
  refine ⟨fun hnone => ⟨?_, ?_⟩, fun a ha hk => ?_, fun hdone => ?_⟩
  · have := hacc.remain .map
    rw [hnone] at this
    exact this
  · have := hacc.remain .reduce
    rw [hnone] at this
    exact this
  · exact Master.unfinished_eq_zero.mp (hacc.assignments a ha hk)
  · have := hacc.remain .reduce
    rw [(Master.done_iff _).mp hdone] at this
    have hzero : s.master.unfinished .reduce = 0 := by omega
    exact Master.unfinished_eq_zero.mp hzero

/-- One map task and one reduce task, each handed out, reported and counted. -/
def twoTasks : List Action :=
  [.ask, .scan 0, .tick second, .report 0, .check 0, .complete 0, .decrement 0, .ask, .scan 0, .tick second,
    .report 1, .check 0, .complete 0, .decrement 0]

theorem phase_accounting_two_tasks : ∃ s : Job, s.responses = [] ∧ s.master.done = true ∧
    (∃ a ∈ s.assignments, a.reply.kind = some .reduce) ∧ s.master.mapRemain = 0 ∧
    (∀ task ∈ s.master.mtasks, task.state = .completed) ∧ (∀ task ∈ s.master.rtasks, task.state = .completed) := by
  obtain ⟨s, hs, h⟩ := Run.exec_any step FirstReport (init ["pg-grimm.txt"] 1 0) twoTasks
    (fun s => decide (s.responses = [] ∧ s.master.done = true ∧ (∃ a ∈ s.assignments, a.reply.kind = some .reduce) ∧
      s.master.mapRemain = 0)) (by decide)
  obtain ⟨hnone, hdone, ⟨a, ha, hk⟩, hremain⟩ := of_decide_eq_true h
  obtain ⟨-, hmap, hreduce⟩ := phase_accounting ⟨0, Run.exec_steps hs⟩
  exact ⟨s, hnone, hdone, ⟨a, ha, hk⟩, hremain, hmap a ha hk, hreduce hdone⟩

/-- The first map task is handed out twice, the second time after 10 seconds, and both workers report within 10
    seconds of the second time. The two reports count as two tasks, and the second map task is never performed. -/
def reportedTwice : List Action :=
  [.ask, .scan 0, .tick (10 * second), .wait 0, .ask, .scan 0, .tick second, .report 0, .check 0, .complete 0,
    .decrement 0, .tick second, .report 1, .check 0, .complete 0, .decrement 0, .ask, .scan 0]

theorem reduce_before_map_completed : ∃ s : Job, Reachable ["pg-grimm.txt", "pg-dorian_gray.txt"] 1 (fun _ _ => True) s ∧
    s.responses = [] ∧ s.master.mapRemain = 0 ∧ s.master.mtasks.countP (·.state ≠ .completed) = 1 ∧
    ∃ a ∈ s.assignments, a.reply.kind = some .reduce := by
  obtain ⟨s, hs, h⟩ := Run.exec_any step (fun _ _ => True) (init ["pg-grimm.txt", "pg-dorian_gray.txt"] 1 0) reportedTwice
    (fun s => decide (s.responses = [] ∧ s.master.mapRemain = 0 ∧ s.master.mtasks.countP (·.state ≠ .completed) = 1 ∧
      ∃ a ∈ s.assignments, a.reply.kind = some .reduce)) (by decide)
  exact ⟨s, ⟨0, Run.exec_steps hs⟩, of_decide_eq_true h⟩

end DistributedLabs.MapReduce
