import DistributedLabs.MapReduce.Accounting

/-! The timers of the master. A task is handed out together with its `wait`, and only an idle task is handed out, so a
    task that is not completed is idle without a `wait` or in progress with one. -/

namespace DistributedLabs.MapReduce

open Table

/-! ### One task -/

namespace Master

variable {m : Master} {kind kind' : Kind} {i j : Nat} {task task' : Task}

theorem tasks_setTask_self (h : (m.tasks kind)[i]? = some task) :
    ((m.setTask kind i task').tasks kind)[i]? = some task' := by
  rw [tasks_setTask, if_pos rfl, List.getElem?_set_self (List.getElem?_eq_some_iff.mp h).1]

theorem tasks_setTask_ne (h : ¬ (kind' = kind ∧ j = i)) :
    ((m.setTask kind' j task').tasks kind)[i]? = (m.tasks kind)[i]? := by
  rw [tasks_setTask]
  split
  · rename_i hk
    exact List.getElem?_set_ne fun hij => h ⟨hk.symm, hij⟩
  · rfl

end Master

/-- The `wait` is one for the task. -/
def Wait.isFor (kind : Kind) (i : Nat) (w : Wait) : Bool := w.kind = kind ∧ w.index = i

namespace Job

/-- The number of pending `wait`s for a task. -/
def pending (s : Job) (kind : Kind) (i : Nat) : Nat := s.waits.countP (Wait.isFor kind i)

/-- A step hands out a task: one more worker has it, with the present time. -/
def HandsOut (s s' : Job) (kind : Kind) (i : Nat) : Prop :=
  ∃ reply, reply.response = some ⟨kind, i⟩ ∧ s'.assignments = s.assignments ++ [⟨reply, s.clock, false⟩]

/-- The task whose `wait` is over in the action. -/
def Action.expires (s : Job) : Action → Option (Kind × Nat)
  | .wait k => (s.waits[k]?).map fun w => (w.kind, w.index)
  | _ => none

/-- What a step does to a task and its timers, with the task after it. -/
inductive TaskMove (s : Job) (a : Action) (s' : Job) (kind : Kind) (i : Nat) (task : Task) : Task → Prop where
  | kept (hpending : s'.pending kind i = s.pending kind i) (hno : ¬ HandsOut s s' kind i) :
      TaskMove s a s' kind i task task
  | handedOut (hidle : task.state = .idle) (hpending : s'.pending kind i = s.pending kind i + 1)
      (hout : HandsOut s s' kind i) : TaskMove s a s' kind i task (task.handOut s.clock)
  | expired (ha : a.expires s = some (kind, i)) (hpending : s'.pending kind i + 1 = s.pending kind i)
      (hno : ¬ HandsOut s s' kind i) : TaskMove s a s' kind i task task.wait
  | completed (hpending : s'.pending kind i = s.pending kind i) (hno : ¬ HandsOut s s' kind i) :
      TaskMove s a s' kind i task task.complete

section Step
variable {s s' : Job} {a : Action} {kind : Kind} {i : Nat} {task : Task}

theorem not_handsOut_of_length (h : s'.assignments.length = s.assignments.length) : ¬ HandsOut s s' kind i := by
  rintro ⟨reply, -, happend⟩
  have hlen := congrArg List.length happend
  rw [List.length_append, List.length_singleton] at hlen
  omega

theorem Stepped.move (h : Stepped s a s') (htask : (s.master.tasks kind)[i]? = some task) :
    ∃ task', (s'.master.tasks kind)[i]? = some task' ∧ TaskMove s a s' kind i task task' := by
  have same : s'.master.tasks kind = s.master.tasks kind → s'.waits = s.waits →
      s'.assignments.length = s.assignments.length →
      ∃ task', (s'.master.tasks kind)[i]? = some task' ∧ TaskMove s a s' kind i task task' := by
    intro htasks hwaits hlen
    refine ⟨task, htasks ▸ htask, .kept ?_ (not_handsOut_of_length hlen)⟩
    unfold pending
    rw [hwaits]
  cases h with
  | @handOut k ask task₁ _ htask₁ _ hidle =>
    by_cases hfor : ask.kind = kind ∧ ask.next = i
    · obtain ⟨rfl, rfl⟩ := hfor
      rw [htask] at htask₁
      cases htask₁
      refine ⟨_, Master.tasks_setTask_self htask, .handedOut hidle ?_ ⟨_, ?_, rfl⟩⟩
      · unfold pending
        rw [handOut_waits, countP_concat]
        simp [Wait.isFor]
      · simp [AskReply.response]
    · refine ⟨task, (Master.tasks_setTask_ne hfor).trans htask, .kept ?_ ?_⟩
      · unfold pending
        rw [handOut_waits, countP_concat]
        simp [Wait.isFor, hfor]
      · -- The one new assignment is for another task.
        rintro ⟨reply, hreply, happend⟩
        rw [handOut_assignments] at happend
        have hnew := List.append_cancel_left happend
        cases hnew
        simp only [AskReply.response, Master.reply_kind, Master.reply_index, Option.map_some, Option.some.injEq,
          ResponseArgs.mk.injEq] at hreply
        exact hfor hreply
  | @expire k w task₁ hw _ _ htask₁ =>
    have herase := countP_eraseIdx_add (Wait.isFor kind i) hw
    by_cases hfor : w.kind = kind ∧ w.index = i
    · obtain ⟨rfl, rfl⟩ := hfor
      rw [htask] at htask₁
      cases htask₁
      refine ⟨_, Master.tasks_setTask_self htask, .expired ?_ ?_ (not_handsOut_of_length rfl)⟩
      · simp [Action.expires, hw]
      · unfold pending
        rw [expire_waits]
        simpa [Wait.isFor] using herase
    · refine ⟨task, (Master.tasks_setTask_ne hfor).trans htask, .kept ?_ (not_handsOut_of_length rfl)⟩
      unfold pending
      rw [expire_waits]
      simpa [Wait.isFor, hfor] using herase
  | @complete k r task₁ _ _ _ htask₁ =>
    by_cases hfor : r.args.kind = kind ∧ r.args.index = i
    · obtain ⟨rfl, rfl⟩ := hfor
      rw [htask] at htask₁
      cases htask₁
      exact ⟨_, Master.tasks_setTask_self htask, .completed rfl (not_handsOut_of_length rfl)⟩
    · exact ⟨task, (Master.tasks_setTask_ne hfor).trans htask, .kept rfl (not_handsOut_of_length rfl)⟩
  | decrement => exact same (Master.tasks_decrement _ _ _) rfl rfl
  | report => exact same rfl rfl List.length_set
  | _ => exact same rfl rfl rfl

/-! ### The invariant -/

/-- Idle without a timer, in progress with one, or completed with at most one. -/
def Timed (s : Job) (kind : Kind) (i : Nat) (task : Task) : Prop :=
  (task.state = .idle ∧ s.pending kind i = 0) ∨ (task.state = .inProgress ∧ s.pending kind i = 1) ∨
    (task.state = .completed ∧ s.pending kind i ≤ 1)

variable {task' : Task}

theorem Timed.pending_of_idle (h : s.Timed kind i task) (hidle : task.state = .idle) : s.pending kind i = 0 := by
  rcases h with ⟨-, h0⟩ | ⟨hst, -⟩ | ⟨hst, -⟩
  · exact h0
  · rw [hidle] at hst
    cases hst
  · rw [hidle] at hst
    cases hst

theorem TaskMove.timed (h : TaskMove s a s' kind i task task') (ht : s.Timed kind i task) : s'.Timed kind i task' := by
  unfold Timed
  cases h with
  | kept hpending =>
    rw [hpending]
    exact ht
  | handedOut hidle hpending =>
    refine Or.inr (Or.inl ⟨rfl, ?_⟩)
    rw [hpending, ht.pending_of_idle hidle]
  | expired _ hpending =>
    -- The timer that is over was there, so the task was not idle.
    rcases ht with ⟨-, h0⟩ | ⟨hst, h1⟩ | ⟨hst, h1⟩
    · omega
    · refine Or.inl ⟨?_, by omega⟩
      rw [Task.wait, if_neg (by rw [hst]; simp)]
    · refine Or.inr (Or.inr ⟨?_, by omega⟩)
      rw [Task.wait, if_pos hst]
      exact hst
  | completed hpending =>
    refine Or.inr (Or.inr ⟨rfl, ?_⟩)
    rcases ht with ⟨-, h0⟩ | ⟨-, h1⟩ | ⟨-, h1⟩ <;> omega

theorem TaskMove.completed_stays (h : TaskMove s a s' kind i task task') (hc : task.state = .completed) :
    task'.state = .completed := by
  cases h with
  | kept => exact hc
  | handedOut hidle =>
    rw [hidle] at hc
    cases hc
  | expired =>
    rw [Task.wait, if_pos hc]
    exact hc
  | completed => rfl

/-- Only the end of its `wait` takes a timer of the task away. -/
theorem TaskMove.pending_le (h : TaskMove s a s' kind i task task') (ha : a.expires s ≠ some (kind, i)) :
    s.pending kind i ≤ s'.pending kind i := by
  cases h with
  | expired hexpires => exact absurd hexpires ha
  | kept hpending => exact Nat.le_of_eq hpending.symm
  | handedOut _ hpending => omega
  | completed hpending => exact Nat.le_of_eq hpending.symm

/-- Only an idle task is handed out, together with its `wait`. -/
theorem TaskMove.of_handsOut (h : TaskMove s a s' kind i task task') (hout : HandsOut s s' kind i) :
    task.state = .idle ∧ task' = task.handOut s.clock ∧ s'.pending kind i = s.pending kind i + 1 := by
  cases h with
  | handedOut hidle hpending => exact ⟨hidle, rfl, hpending⟩
  | kept _ hno => exact absurd hout hno
  | expired _ _ hno => exact absurd hout hno
  | completed _ hno => exact absurd hout hno

theorem TaskMove.not_handsOut (h : TaskMove s a s' kind i task task') (ht : s.Timed kind i task)
    (hpending : 0 < s.pending kind i) : ¬ HandsOut s s' kind i := fun hout =>
  absurd (ht.pending_of_idle (h.of_handsOut hout).1) (Nat.ne_of_gt hpending)

end Step

/-- Every task is one of the table before the step. -/
theorem Stepped.task_before {s s' : Job} {a : Action} (h : Stepped s a s') {kind : Kind} {i : Nat} {task' : Task}
    (htask : (s'.master.tasks kind)[i]? = some task') :
    ∃ task, (s.master.tasks kind)[i]? = some task ∧ TaskMove s a s' kind i task task' := by
  have hlt := (List.getElem?_eq_some_iff.mp htask).1
  rw [h.tasks_length] at hlt
  obtain ⟨task'', htask'', hmove⟩ := h.move (List.getElem?_eq_getElem hlt)
  rw [htask] at htask''
  cases htask''
  exact ⟨_, List.getElem?_eq_getElem hlt, hmove⟩

theorem Steps.timed {P : Job → Action → Prop} {s s' : Job} (hs : Steps P s s')
    (h : ∀ {kind i task}, (s.master.tasks kind)[i]? = some task → s.Timed kind i task) {kind : Kind} {i : Nat}
    {task : Task} (htask : (s'.master.tasks kind)[i]? = some task) : s'.Timed kind i task := by
  unfold Steps Run.Steps at hs
  induction hs generalizing kind i task with
  | refl => exact h htask
  | tail _ hnext ih =>
    obtain ⟨a, -, hstep⟩ := hnext
    obtain ⟨task₀, htask₀, hmove⟩ := (step_inv hstep).task_before htask
    exact hmove.timed (ih htask₀)

/-- Nothing was handed out by a master that was just made. -/
theorem timed_init {files : List String} {nReduce now : Nat} {kind : Kind} {i : Nat} {task : Task}
    (htask : ((init files nReduce now).master.tasks kind)[i]? = some task) :
    (init files nReduce now).Timed kind i task := by
  refine Or.inl ⟨?_, rfl⟩
  have hmem := List.mem_of_getElem? htask
  cases kind with
  | map =>
    obtain ⟨file, -, rfl⟩ := List.mem_map.mp hmem
    rfl
  | reduce =>
    rw [List.eq_of_mem_replicate hmem]

theorem Steps.completed_stays {P : Job → Action → Prop} {s s' : Job} (hs : Steps P s s') {kind : Kind} {i : Nat}
    {task : Task} (htask : (s.master.tasks kind)[i]? = some task) (hc : task.state = .completed) :
    ∃ task', (s'.master.tasks kind)[i]? = some task' ∧ task'.state = .completed := by
  refine Run.Steps.keeps
    (I := fun s' : Job => ∃ task', (s'.master.tasks kind)[i]? = some task' ∧ task'.state = .completed) ?_ hs ⟨task, htask, hc⟩
  rintro s₁ s₂ a ⟨task₁, htask₁, hc₁⟩ - hstep
  obtain ⟨task₂, htask₂, hmove⟩ := (step_inv hstep).move htask₁
  exact ⟨task₂, htask₂, hmove.completed_stays hc₁⟩

/-- A timer of a task stays until it is over. -/
theorem Steps.pending_pos {kind : Kind} {i : Nat} {s s' : Job}
    (hs : Steps (fun s a => a.expires s ≠ some (kind, i)) s s') (hlt : i < (s.master.tasks kind).length)
    (hp : 0 < s.pending kind i) : i < (s'.master.tasks kind).length ∧ 0 < s'.pending kind i := by
  refine Run.Steps.keeps
    (I := fun s' : Job => i < (s'.master.tasks kind).length ∧ 0 < s'.pending kind i) ?_ hs ⟨hlt, hp⟩
  rintro s₁ s₂ a ⟨hlt₁, hp₁⟩ ha hstep
  have hstepped := step_inv hstep
  obtain ⟨_, -, hmove⟩ := hstepped.move (List.getElem?_eq_getElem hlt₁)
  exact ⟨hstepped.tasks_length kind ▸ hlt₁, Nat.lt_of_lt_of_le hp₁ (hmove.pending_le ha)⟩

end Job

open Job

/-- In every state of every run, for every task: it is idle without a pending `wait`, in progress with one, or completed
    with at most one; once completed it stays so; and from the step that hands it out up to the end of its `wait` no
    step hands it out. -/
theorem tasks_timed {files : List String} {nReduce : Nat} {s : Job}
    (h : Reachable files nReduce (fun _ _ => True) s) {kind : Kind} {i : Nat} {task : Task}
    (htask : (s.master.tasks kind)[i]? = some task) :
    ((task.state = .idle ∧ s.pending kind i = 0) ∨ (task.state = .inProgress ∧ s.pending kind i = 1) ∨
      (task.state = .completed ∧ s.pending kind i ≤ 1)) ∧
    (task.state = .completed → ∀ s', Steps (fun _ _ => True) s s' →
      ∃ task', (s'.master.tasks kind)[i]? = some task' ∧ task'.state = .completed) ∧
    (∀ a s₁ s₂ b s₃, s.step a = some s₁ → HandsOut s s₁ kind i →
      Steps (fun s a => a.expires s ≠ some (kind, i)) s₁ s₂ → s₂.step b = some s₃ → ¬ HandsOut s₂ s₃ kind i) := by
  obtain ⟨now, h⟩ := h
  have htimed := h.timed timed_init htask
  refine ⟨htimed, fun hc s' hs => hs.completed_stays htask hc, fun a s₁ s₂ b s₃ hout₁ hout hs hb => ?_⟩
  have hstepped := step_inv hout₁
  obtain ⟨task₁, htask₁, hmove⟩ := hstepped.move htask
  have hpos : 0 < s₁.pending kind i := by
    rw [(hmove.of_handsOut hout).2.2]
    exact Nat.succ_pos _
  obtain ⟨hlt₂, hpos₂⟩ := hs.pending_pos (List.getElem?_eq_some_iff.mp htask₁).1 hpos
  have htask₂ := List.getElem?_eq_getElem hlt₂
  have htimed₂ : s₂.Timed kind i _ := hs.timed (fun htask' => by
    obtain ⟨task₀, htask₀, hmove₀⟩ := hstepped.task_before htask'
    exact hmove₀.timed (h.timed timed_init htask₀)) htask₂
  obtain ⟨_, -, hmove₂⟩ := (step_inv hb).move htask₂
  exact hmove₂.not_handsOut htimed₂ hpos₂

/-- One map task is handed out while another worker asks. -/
theorem tasks_timed_asked_again : ∃ s s₁ s₂ s₃ : Job, HandsOut s s₁ .map 0 ∧ s₁.pending .map 0 = 1 ∧
    s₂.step (.scan 0) = some s₃ ∧ ¬ HandsOut s₂ s₃ .map 0 := by
  obtain ⟨s, hs, h⟩ := Run.exec_any step (fun _ _ => True) (init ["pg-grimm.txt"] 1 0) [.ask]
    (fun s => decide ((s.master.tasks .map)[0]? = some (⟨"pg-grimm.txt", .idle, none⟩ : Task)) &&
      (s.step (.scan 0)).any fun (s₁ : Job) =>
        decide (s₁.assignments = s.assignments ++
          [⟨{ kind := some .map, file := "pg-grimm.txt", nReduce := 1, index := 0 }, s.clock, false⟩] ∧
          s₁.pending .map 0 = 1) &&
        (Run.exec step (fun s a => a.expires s ≠ some (.map, 0)) s₁ [.tick second, .ask]).any fun (s₂ : Job) =>
          (s₂.step (.scan 0)).isSome) (by decide)
  obtain ⟨htask, h⟩ := Bool.and_eq_true_iff.mp h
  obtain ⟨s₁, hs₁, h⟩ := (Option.any_eq_true _ _).mp h
  obtain ⟨hout, h⟩ := Bool.and_eq_true_iff.mp h
  obtain ⟨hout, hpending⟩ := of_decide_eq_true hout
  obtain ⟨s₂, hs₂, h⟩ := (Option.any_eq_true _ _).mp h
  obtain ⟨s₃, hs₃⟩ := Option.isSome_iff_exists.mp h
  have hout : HandsOut s s₁ .map 0 := ⟨_, rfl, hout⟩
  exact ⟨s, s₁, s₂, s₃, hout, hpending, hs₃, (tasks_timed ⟨0, Run.exec_steps hs⟩ (of_decide_eq_true htask)).2.2 _ _ _ _ _
    hs₁ hout (Run.exec_steps hs₂) hs₃⟩

end DistributedLabs.MapReduce
