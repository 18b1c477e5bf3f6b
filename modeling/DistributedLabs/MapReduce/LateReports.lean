import DistributedLabs.MapReduce.Waits

/-! Late reports. A report names its task and not the assignment it is for; `HandleResponse` compares its time with the
    timestamp of the task, which is that of the latest assignment. So a late report is ignored exactly when it is late
    for every assignment of the task that was handed out by then. -/

namespace DistributedLabs.MapReduce

namespace Job

/-! ### Timestamps -/

/-- A report received at `now` is 10 seconds late for every assignment of its task. -/
def Overdue (s : Job) (response : Option ResponseArgs) (now : Nat) : Prop :=
  ∀ b ∈ s.assignments, b.reply.response = response → b.time + 10 * second ≤ now

instance (s : Job) (response : Option ResponseArgs) (now : Nat) : Decidable (s.Overdue response now) :=
  inferInstanceAs (Decidable (∀ b ∈ s.assignments, _))

/-- The timestamp of a task is the time of its latest assignment. -/
structure Stamped (s : Job) : Prop where
  clock : ∀ b ∈ s.assignments, b.time ≤ s.clock
  timestamp : ∀ b ∈ s.assignments, ∀ args, b.reply.response = some args →
    ∃ task, (s.master.tasks args.kind)[args.index]? = some task ∧
      ∃ b' ∈ s.assignments, b'.reply.response = some args ∧ task.timestamp = some b'.time ∧ b.time ≤ b'.time

section Step
variable {s s' : Job} {a : Action} {kind : Kind} {i : Nat} {task task' : Task}

/-- What the assignments of a job say, apart from who has reported. -/
def handedOut (s : Job) : List (AskReply × Nat) := s.assignments.map fun b => (b.reply, b.time)

/-- A step hands out a task of the table, or leaves what was handed out. -/
theorem Stepped.handedOut (h : Stepped s a s') :
    (∃ kind i task, (s.master.tasks kind)[i]? = some task ∧ HandsOut s s' kind i) ∨ s'.handedOut = s.handedOut := by
  cases h with
  | handOut _ htask => exact Or.inl ⟨_, _, _, htask, _, by simp [AskReply.response], rfl⟩
  | report hb => exact Or.inr (Table.map_set_of_eq _ hb rfl)
  | _ => exact Or.inr rfl

theorem getElem?_of_handedOut (h : s'.handedOut = s.handedOut) {k : Nat} {b : Assignment}
    (hb : s'.assignments[k]? = some b) :
    ∃ b₀, s.assignments[k]? = some b₀ ∧ b₀.reply = b.reply ∧ b₀.time = b.time := by
  have hmap := congrArg (fun l => l[k]?) h
  simp only [Job.handedOut, List.getElem?_map, hb, Option.map_some] at hmap
  obtain ⟨b₀, hb₀, heq⟩ := Option.map_eq_some_iff.mp hmap.symm
  exact ⟨b₀, hb₀, congrArg Prod.fst heq, congrArg Prod.snd heq⟩

/-- An assignment stays where it is, as what was handed out. -/
theorem Stepped.assignment (h : Stepped s a s') {k : Nat} {b : Assignment} (hb : s.assignments[k]? = some b) :
    ∃ b', s'.assignments[k]? = some b' ∧ b'.reply = b.reply ∧ b'.time = b.time := by
  rcases h.handedOut with ⟨kind, i, -, -, reply, -, happend⟩ | hsame
  · refine ⟨b, ?_, rfl, rfl⟩
    rw [happend, List.getElem?_append_left (List.getElem?_eq_some_iff.mp hb).1]
    exact hb
  · exact getElem?_of_handedOut hsame.symm hb

theorem mem_of_handedOut (h : s'.handedOut = s.handedOut) {b : Assignment} (hb : b ∈ s'.assignments) :
    ∃ b₀ ∈ s.assignments, b₀.reply = b.reply ∧ b₀.time = b.time := by
  obtain ⟨k, hk⟩ := List.mem_iff_getElem?.mp hb
  obtain ⟨b₀, hb₀, hsame⟩ := getElem?_of_handedOut h hk
  exact ⟨b₀, List.mem_of_getElem? hb₀, hsame⟩

theorem Stepped.clock_le (h : Stepped s a s') : s.clock ≤ s'.clock := by
  cases h with
  | tick => exact Nat.le_add_right _ _
  | _ => exact Nat.le_refl _

/-- Only handing it out writes the timestamp of a task. -/
theorem TaskMove.timestamp (h : TaskMove s a s' kind i task task') (hno : ¬ HandsOut s s' kind i) :
    task'.timestamp = task.timestamp := by
  cases h with
  | kept => rfl
  | handedOut _ _ hout => exact absurd hout hno
  | expired =>
    unfold Task.wait
    split <;> rfl
  | completed => rfl

/-- A task that is not handed out keeps its timestamp, and what it is the time of. -/
theorem Stepped.stamp_kept (h : Stepped s a s') (htask : (s.master.tasks kind)[i]? = some task)
    (hno : ¬ HandsOut s s' kind i) :
    ∃ task', (s'.master.tasks kind)[i]? = some task' ∧ task'.timestamp = task.timestamp := by
  obtain ⟨task', htask', hmove⟩ := h.move htask
  exact ⟨task', htask', hmove.timestamp hno⟩

theorem Stamped.step (h : s.Stamped) (hs : Stepped s a s') : s'.Stamped := by
  rcases hs.handedOut with ⟨kind, i, task, htask, hout⟩ | hsame
  · obtain ⟨reply, hreply, happend⟩ := hout
    refine ⟨fun b hb => ?_, fun b hb args hargs => ?_⟩
    · rw [happend] at hb
      refine Nat.le_trans ?_ hs.clock_le
      rcases List.mem_append.mp hb with hb | hb
      · exact h.clock b hb
      · exact Nat.le_of_eq (congrArg Assignment.time (List.mem_singleton.mp hb))
    · by_cases hsame : args = ⟨kind, i⟩
      · -- The task handed out: its timestamp is the clock, which no earlier assignment is ahead of.
        subst hsame
        obtain ⟨task', htask', hmove⟩ := hs.move htask
        obtain ⟨-, rfl, -⟩ := hmove.of_handsOut ⟨reply, hreply, happend⟩
        refine ⟨_, htask', ⟨reply, s.clock, false⟩, happend ▸ List.mem_append_right _ (List.mem_singleton_self _),
          hreply, rfl, ?_⟩
        rw [happend] at hb
        rcases List.mem_append.mp hb with hb | hb
        · exact h.clock b hb
        · exact Nat.le_of_eq (congrArg Assignment.time (List.mem_singleton.mp hb))
      · -- Another task: its assignments and its timestamp are the old ones.
        rw [happend] at hb
        have hb : b ∈ s.assignments := by
          refine (List.mem_append.mp hb).resolve_right fun hb => hsame ?_
          cases List.mem_singleton.mp hb
          exact Option.some.inj (hargs.symm.trans hreply)
        obtain ⟨task₀, htask₀, b', hb', hargs', hstamp, hle⟩ := h.timestamp b hb args hargs
        obtain ⟨task', htask', hkept⟩ := hs.stamp_kept htask₀ (by
          rintro ⟨reply', hreply', happend'⟩
          rw [happend] at happend'
          cases List.append_cancel_left happend'
          exact hsame (Option.some.inj (hreply'.symm.trans hreply)))
        exact ⟨task', htask', b', happend ▸ List.mem_append_left _ hb', hargs', hkept.trans hstamp, hle⟩
  · refine ⟨fun b hb => ?_, fun b hb args hargs => ?_⟩
    · obtain ⟨b₀, hb₀, -, htime⟩ := mem_of_handedOut hsame hb
      exact htime ▸ Nat.le_trans (h.clock b₀ hb₀) hs.clock_le
    · obtain ⟨b₀, hb₀, hreply, htime⟩ := mem_of_handedOut hsame hb
      obtain ⟨task₀, htask₀, b', hb', hargs', hstamp, hle⟩ := h.timestamp b₀ hb₀ args (hreply ▸ hargs)
      obtain ⟨b₁, hb₁, hreply₁, htime₁⟩ := mem_of_handedOut hsame.symm hb'
      have hlen := congrArg List.length hsame
      rw [Job.handedOut, Job.handedOut, List.length_map, List.length_map] at hlen
      obtain ⟨task', htask', hkept⟩ := hs.stamp_kept htask₀ (not_handsOut_of_length hlen)
      exact ⟨task', htask', b₁, hb₁, hreply₁ ▸ hargs', htime₁ ▸ hkept.trans hstamp, htime₁ ▸ htime ▸ hle⟩

/-- The test of `HandleResponse` fails exactly when the report is late for every assignment of its task. -/
theorem Stamped.onTime_iff (h : s.Stamped) {b : Assignment} (hb : b ∈ s.assignments) {args : ResponseArgs}
    (hargs : b.reply.response = some args) (htask : (s.master.tasks args.kind)[args.index]? = some task) (now : Nat) :
    task.onTime now = false ↔ s.Overdue (some args) now := by
  obtain ⟨task', htask', b', hb', hargs', hstamp, -⟩ := h.timestamp b hb args hargs
  rw [htask] at htask'
  cases htask'
  unfold Task.onTime
  rw [hstamp]
  refine ⟨fun hlate b₁ hb₁ hargs₁ => ?_, fun hover => ?_⟩
  · -- No assignment of the task is later than its timestamp.
    obtain ⟨task', htask', b₂, hb₂, hargs₂, hstamp₂, hle⟩ := h.timestamp b₁ hb₁ args hargs₁
    rw [htask] at htask'
    cases htask'
    have htime := Option.some.inj (hstamp.symm.trans hstamp₂)
    have := of_decide_eq_false hlate
    omega
  · exact decide_eq_false (Nat.not_lt.mpr (hover b' hb' hargs'))

end Step

theorem Reachable.stamped {files : List String} {nReduce : Nat} {P : Job → Action → Prop} {s : Job}
    (h : Reachable files nReduce P s) : s.Stamped := by
  obtain ⟨now, h⟩ := h
  refine Run.Steps.keeps (fun s s' a hi _ hs => hi.step (step_inv hs)) h ⟨fun b hb => ?_, fun b hb => ?_⟩
  · cases hb
  · cases hb

/-! ### One report -/

/-- The report whose `HandleResponse` the action runs. -/
def Action.responds : Action → Option Nat
  | .check k | .complete k | .decrement k => some k
  | _ => none

/-- Where the report at position `j` stands after a step: a `HandleResponse` that returns leaves the list. -/
def follow (s s' : Job) (a : Action) (j : Nat) : Option Nat :=
  match a.responds with
  | none => some j
  | some k =>
    if s'.responses.length = s.responses.length then some j
    else if k < j then some (j - 1)
    else if k = j then none
    else some j

/-- A step of a job that keeps an eye on one report, as long as its `HandleResponse` has not returned. -/
def followStep (x : Job × Nat) (a : Action) : Option (Job × Nat) :=
  match x.1.step a with
  | none => none
  | some s' => (follow x.1 s' a x.2).map fun j => (s', j)

section Step
variable {s s' : Job} {a : Action}

/-- A report whose `HandleResponse` has returned is not followed any further. -/
theorem follow_returned {j : Nat} (ha : a.responds = some j) (hj : j < s.responses.length)
    (h : s'.responses = s.responses.eraseIdx j) : follow s s' a j = none := by
  unfold follow
  rw [ha, h, List.length_eraseIdx_of_lt hj]
  dsimp only
  rw [if_neg (by omega), if_neg (Nat.lt_irrefl j), if_pos rfl]

theorem followStep_inv {x x' : Job × Nat} (h : followStep x a = some x') :
    x.1.step a = some x'.1 ∧ follow x.1 x'.1 a x.2 = some x'.2 := by
  unfold followStep at h
  split at h
  · cases h
  · rename_i s' hs
    obtain ⟨j, hj, rfl⟩ := Option.map_eq_some_iff.mp h
    exact ⟨hs, hj⟩

/-- What other goroutines do leaves the report as it is. -/
theorem Stepped.followed (h : Stepped s a s') {j j' : Nat} (hf : follow s s' a j = some j') {r : Response}
    (hr : s.responses[j]? = some r) (hother : a.responds ≠ some j) : s'.responses[j']? = some r := by
  -- A report that is taken out at another position.
  have erased : ∀ {k : Nat} {r' : Response}, s.responses[k]? = some r' → a.responds = some k →
      s'.responses = s.responses.eraseIdx k → s'.responses[j']? = some r := by
    intro k r' hr' ha heq
    have hk := (List.getElem?_eq_some_iff.mp hr').1
    have hne : k ≠ j := fun hkj => hother (hkj ▸ ha)
    unfold follow at hf
    rw [ha] at hf
    dsimp only at hf
    rw [if_neg (by rw [heq, List.length_eraseIdx_of_lt hk]; omega)] at hf
    rw [heq, List.getElem?_eraseIdx]
    split at hf
    · cases hf
      rw [if_neg (by omega), show j - 1 + 1 = j by omega]
      exact hr
    · cases hf
      rw [if_pos (by omega)]
      exact hr
  have kept : ∀ {k : Nat} {r' : Response}, a.responds = some k → s'.responses = s.responses.set k r' →
      s'.responses[j']? = some r := by
    intro k r' ha heq
    have hne : k ≠ j := fun hkj => hother (hkj ▸ ha)
    unfold follow at hf
    rw [ha] at hf
    dsimp only at hf
    rw [if_pos (by rw [heq, List.length_set])] at hf
    cases hf
    rw [heq, List.getElem?_set_ne hne]
    exact hr
  cases h with
  | accept => exact kept rfl rfl
  | complete => exact kept rfl rfl
  | ignore hr' => exact erased hr' rfl rfl
  | decrement hr' => exact erased hr' rfl rfl
  | report =>
    cases hf
    rw [report_responses, List.getElem?_append_left (List.getElem?_eq_some_iff.mp hr).1]
    exact hr
  | _ =>
    cases hf
    exact hr

end Step

/-- The report at position `j` is one of `args`, received at `now`, and has only been received. -/
structure ReceivedAt (s : Job) (args : ResponseArgs) (now j : Nat) : Prop where
  stamped : s.Stamped
  assignment : ∃ b ∈ s.assignments, b.reply.response = some args
  response : s.responses[j]? = some ⟨args, now, .received⟩

/-- When the report is checked, it is late for every assignment of its task. -/
def CheckedOverdue (response : Option ResponseArgs) (now : Nat) (x : Job × Nat) (a : Action) : Prop :=
  a = .check x.2 → x.1.Overdue response now

instance (response : Option ResponseArgs) (now : Nat) (x : Job × Nat) (a : Action) :
    Decidable (CheckedOverdue response now x a) := inferInstanceAs (Decidable (_ → _))

namespace ReceivedAt

variable {s s' : Job} {a : Action} {args : ResponseArgs} {now j : Nat}

/-- Its next section is the check. -/
theorem check (h : s.ReceivedAt args now j) (hs : Stepped s a s') (ha : a.responds = some j) : a = .check j := by
  have hr := h.response
  cases hs with
  | accept =>
    cases ha
    rfl
  | ignore =>
    cases ha
    rfl
  | complete hr' hst' =>
    cases ha
    rw [hr] at hr'
    cases hr'
    cases hst'
  | decrement hr' hst' =>
    cases ha
    rw [hr] at hr'
    cases hr'
    cases hst'
  | _ => cases ha

/-- The check ignores the report exactly when it is late for every assignment of its task. -/
theorem ignored_iff (h : s.ReceivedAt args now j) (hs : Stepped s (.check j) s') :
    s' = s.ignore j ↔ s.Overdue (some args) now := by
  obtain ⟨b, hb, hargs⟩ := h.assignment
  cases hs with
  | @accept _ r task hr' _ htask htime =>
    rw [h.response] at hr'
    cases hr'
    refine ⟨fun heq => ?_, fun hover => ?_⟩
    · -- An ignored report leaves the list, an accepted one does not.
      have hlen := congrArg (fun x : Job => x.responses.length) heq
      have hj := (List.getElem?_eq_some_iff.mp h.response).1
      simp only [accept_responses, ignore_responses, List.length_set, List.length_eraseIdx_of_lt hj] at hlen
      omega
    · rw [(h.stamped.onTime_iff hb hargs htask now).mpr hover] at htime
      cases htime
  | @ignore _ r task hr' _ htask htime =>
    rw [h.response] at hr'
    cases hr'
    exact iff_of_true rfl ((h.stamped.onTime_iff hb hargs htask now).mp htime)

theorem step_of_other (h : s.ReceivedAt args now j) (hs : Stepped s a s') {j' : Nat}
    (hf : follow s s' a j = some j') (hother : a.responds ≠ some j) : s'.ReceivedAt args now j' := by
  refine ⟨h.stamped.step hs, ?_, hs.followed hf h.response hother⟩
  obtain ⟨b, hb, hargs⟩ := h.assignment
  obtain ⟨k, hk⟩ := List.mem_iff_getElem?.mp hb
  obtain ⟨b', hb', hreply, -⟩ := hs.assignment hk
  exact ⟨b', List.mem_of_getElem? hb', hreply ▸ hargs⟩

end ReceivedAt

/-- The report at position `j` is past its check: it was found on time. -/
def AcceptedAt (s : Job) (j : Nat) : Prop := ∃ r, s.responses[j]? = some r ∧ r.stage ≠ .received

theorem AcceptedAt.step {s s' : Job} {a : Action} {j j' : Nat} (h : s.AcceptedAt j) (hs : Stepped s a s')
    (hf : follow s s' a j = some j') : s'.AcceptedAt j' := by
  obtain ⟨r, hr, hst⟩ := h
  by_cases ha : a.responds = some j
  · cases hs with
    | accept hr' hst' =>
      cases ha
      rw [hr] at hr'
      cases hr'
      exact absurd hst' hst
    | ignore hr' hst' =>
      cases ha
      rw [hr] at hr'
      cases hr'
      exact absurd hst' hst
    | complete =>
      cases ha
      unfold follow at hf
      rw [show (Action.complete j).responds = some j from rfl] at hf
      dsimp only at hf
      rw [if_pos (by rw [complete_responses, List.length_set])] at hf
      cases hf
      refine ⟨_, List.getElem?_set_self (List.getElem?_eq_some_iff.mp hr).1, ?_⟩
      exact ResponseStage.noConfusion
    | decrement =>
      -- `HandleResponse` returns: the report is not followed any further.
      cases ha
      rw [follow_returned rfl (List.getElem?_eq_some_iff.mp hr).1 rfl] at hf
      cases hf
    | _ => cases ha
  · exact ⟨r, hs.followed hf hr ha, hst⟩

theorem ReceivedAt.step {s s' : Job} {a : Action} {args : ResponseArgs} {now j j' : Nat} (h : s.ReceivedAt args now j)
    (hs : Stepped s a s') (hf : follow s s' a j = some j') : s'.ReceivedAt args now j' ∨ s'.AcceptedAt j' := by
  by_cases ha : a.responds = some j
  · obtain rfl := h.check hs ha
    have hj := (List.getElem?_eq_some_iff.mp h.response).1
    cases hs with
    | accept =>
      unfold follow at hf
      rw [ha] at hf
      dsimp only at hf
      rw [if_pos (by rw [accept_responses, List.length_set])] at hf
      cases hf
      exact Or.inr ⟨_, List.getElem?_set_self hj, ResponseStage.noConfusion⟩
    | ignore =>
      rw [follow_returned ha hj rfl] at hf
      cases hf
  · exact Or.inl (h.step_of_other hs hf ha)

/-- A report that was just received. -/
theorem Stepped.received {s s' : Job} {k : Nat} (h : Stepped s (.report k) s') (hst : s.Stamped) {b : Assignment}
    (hb : s.assignments[k]? = some b) :
    ∃ args, b.reply.response = some args ∧ s'.ReceivedAt args s.clock s.responses.length := by
  obtain ⟨b', hb', hreply, -⟩ := h.assignment hb
  have hstamped := hst.step h
  cases h with
  | @report _ b₀ args hb₀ hargs =>
    rw [hb] at hb₀
    cases hb₀
    refine ⟨args, hargs, hstamped, ⟨b', List.mem_of_getElem? hb', hreply ▸ hargs⟩, ?_⟩
    rw [report_responses, List.getElem?_append_right (Nat.le_refl _), Nat.sub_self]
    rfl

end Job

open Job

/-- For a report of any assignment, in every run from the moment it is received: the check of its `HandleResponse`
    ignores it exactly when it is then late for every assignment of its task. In every run in which it is, each section
    of its `HandleResponse` leaves the master as it is. -/
theorem late_report_ignored {files : List String} {nReduce : Nat} {s₀ s₁ s₂ s₃ : Job}
    (h : Reachable files nReduce (fun _ _ => True) s₀) {k : Nat} {b : Assignment} (hb : s₀.assignments[k]? = some b)
    (hreport : s₀.step (.report k) = some s₁) {j : Nat} {a : Action} (ha : a.responds = some j)
    (hs : s₂.step a = some s₃) :
    (Run.Steps followStep (fun _ _ => True) (s₁, s₀.responses.length) (s₂, j) → a = .check j →
      (s₃ = s₂.ignore j ↔ s₂.Overdue b.reply.response s₀.clock)) ∧
    (Run.Steps followStep (CheckedOverdue b.reply.response s₀.clock) (s₁, s₀.responses.length) (s₂, j) →
      CheckedOverdue b.reply.response s₀.clock (s₂, j) a → s₃.master = s₂.master) := by
  obtain ⟨args, hargs, hreceived⟩ := (step_inv hreport).received h.stamped hb
  rw [hargs]
  refine ⟨fun hrun hcheck => ?_, fun hrun hover => ?_⟩
  · subst hcheck
    have hfollowed : s₂.ReceivedAt args s₀.clock j ∨ s₂.AcceptedAt j := by
      refine Run.Steps.keeps (I := fun x => x.1.ReceivedAt args s₀.clock x.2 ∨ x.1.AcceptedAt x.2) ?_ hrun
        (Or.inl hreceived)
      intro x x' a' hx _ hstep
      obtain ⟨hstep, hf⟩ := followStep_inv hstep
      rcases hx with hx | hx
      · exact hx.step (step_inv hstep) hf
      · exact Or.inr (hx.step (step_inv hstep) hf)
    rcases hfollowed with hx | ⟨r, hr, hst⟩
    · exact hx.ignored_iff (step_inv hs)
    · -- A report is checked only once.
      simp only [step, hr, ne_eq, hst, not_false_eq_true, ↓reduceIte] at hs
      cases hs
  · have hfollowed : s₂.ReceivedAt args s₀.clock j := by
      refine Run.Steps.keeps (I := fun x => x.1.ReceivedAt args s₀.clock x.2) ?_ hrun hreceived
      intro x x' a' hx hover' hstep
      obtain ⟨hstep, hf⟩ := followStep_inv hstep
      refine hx.step_of_other (step_inv hstep) hf fun ha' => ?_
      -- Its own check is the last section: it would not be followed any further.
      obtain rfl := hx.check (step_inv hstep) ha'
      have hignored := (hx.ignored_iff (step_inv hstep)).mpr (hover' rfl)
      rw [hignored, follow_returned ha' (List.getElem?_eq_some_iff.mp hx.response).1 rfl] at hf
      cases hf
    obtain rfl := hfollowed.check (step_inv hs) ha
    rw [(hfollowed.ignored_iff (step_inv hs)).mpr (hover rfl)]
    rfl

/-- One map task is handed out and 10 seconds pass. -/
def tenSeconds : List Action := [.ask, .scan 0, .tick (10 * second)]

/-- The task is handed out a second time, and another 10 seconds later the first worker reports. -/
theorem late_report_ignored_twenty_seconds : ∃ s₀ s₁ s₂ s₃ : Job, s₀.step (.report 0) = some s₁ ∧
    s₂.step (.check 0) = some s₃ ∧ s₃ = s₂.ignore 0 ∧ s₃.master = s₂.master := by
  obtain ⟨s₀, hs₀, h⟩ := Run.exec_any step (fun _ _ => True) (init ["pg-grimm.txt"] 1 0)
    (tenSeconds ++ [.wait 0, .ask, .scan 0, .tick (10 * second)])
    (fun s₀ => (s₀.assignments[0]?).any fun (b : Assignment) => (s₀.step (.report 0)).any fun (s₁ : Job) =>
      (Run.exec followStep (CheckedOverdue b.reply.response s₀.clock) (s₁, s₀.responses.length) [.wait 0]).any
        fun (x : Job × Nat) => decide (x.2 = 0 ∧ x.1.Overdue b.reply.response s₀.clock) &&
          (x.1.step (.check 0)).isSome) (by decide)
  obtain ⟨b, hb, h⟩ := (Option.any_eq_true _ _).mp h
  obtain ⟨s₁, hs₁, h⟩ := (Option.any_eq_true _ _).mp h
  obtain ⟨⟨s₂, j⟩, hs₂, h⟩ := (Option.any_eq_true _ _).mp h
  obtain ⟨hj, h⟩ := Bool.and_eq_true_iff.mp h
  obtain ⟨rfl, hover⟩ := of_decide_eq_true hj
  obtain ⟨s₃, hs₃⟩ := Option.isSome_iff_exists.mp h
  have hrun := Run.exec_steps hs₂
  obtain ⟨hignored, hkept⟩ := late_report_ignored ⟨0, Run.exec_steps hs₀⟩ hb hs₁ rfl hs₃
  exact ⟨s₀, s₁, s₂, s₃, hs₁, hs₃, (hignored (hrun.mono_reached fun _ _ _ _ _ _ => trivial) rfl).mpr hover,
    hkept hrun fun _ => hover⟩

/-- After 10 seconds the task is handed out to another worker; one second later the first worker reports. -/
def handedOutAgain : List Action := tenSeconds ++ [.wait 0, .ask, .scan 0, .tick second]

/-- The report comes 11 seconds after its assignment, and it completes the task and counts it. -/
theorem late_report_counted : ∃ s₀ s₁ s₂ : Job, Reachable ["pg-grimm.txt"] 1 (fun _ _ => True) s₀ ∧
    (∃ b, s₀.assignments[0]? = some b ∧ b.time + 11 * second = s₀.clock) ∧ s₀.step (.report 0) = some s₁ ∧
    Run.exec step (fun _ _ => True) s₁ [.check 0, .complete 0, .decrement 0] = some s₂ ∧
    s₁.master = ⟨1, 1, [⟨"pg-grimm.txt", .inProgress, some (10 * second)⟩], [⟨"", .idle, none⟩]⟩ ∧
    s₂.master = ⟨0, 1, [⟨"pg-grimm.txt", .completed, some (10 * second)⟩], [⟨"", .idle, none⟩]⟩ := by
  obtain ⟨s₀, hs₀, h⟩ := Run.exec_any step (fun _ _ => True) (init ["pg-grimm.txt"] 1 0) handedOutAgain
    (fun s₀ => ((s₀.assignments[0]?).any fun (b : Assignment) => decide (b.time + 11 * second = s₀.clock)) &&
      (s₀.step (.report 0)).any fun (s₁ : Job) =>
        (Run.exec step (fun _ _ => True) s₁ [.check 0, .complete 0, .decrement 0]).any fun (s₂ : Job) =>
          decide (s₁.master = ⟨1, 1, [⟨"pg-grimm.txt", .inProgress, some (10 * second)⟩], [⟨"", .idle, none⟩]⟩ ∧
            s₂.master = ⟨0, 1, [⟨"pg-grimm.txt", .completed, some (10 * second)⟩], [⟨"", .idle, none⟩]⟩)) (by decide)
  obtain ⟨hb, h⟩ := Bool.and_eq_true_iff.mp h
  obtain ⟨b, hb, hlate⟩ := (Option.any_eq_true _ _).mp hb
  obtain ⟨s₁, hs₁, h⟩ := (Option.any_eq_true _ _).mp h
  obtain ⟨s₂, hs₂, h⟩ := (Option.any_eq_true _ _).mp h
  exact ⟨s₀, s₁, s₂, ⟨0, Run.exec_steps hs₀⟩, ⟨b, hb, of_decide_eq_true hlate⟩, hs₁, hs₂, of_decide_eq_true h⟩

end DistributedLabs.MapReduce
