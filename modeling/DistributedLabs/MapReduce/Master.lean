import DistributedLabs.Lib.Run
import Mathlib.Tactic.Simps.Basic

/-! The master of MapReduce (`mr/master.go`, `mr/rpc.go`) with its goroutines. The handlers are cut where they
    take a lock or read a field that others write; a step is one such section, at any moment of a clock that never
    runs backwards. Workers are seen as the master sees them: a task that was handed out may be reported once, at
    any later time or never. -/

namespace DistributedLabs.MapReduce

/-- The constants `IDLE`, `IN_PROGRESS` and `COMPLETED`. -/
inductive TaskState where
  | idle
  | inProgress
  | completed
  deriving DecidableEq, Repr

/-- The two kinds of a task; a reply of kind "none" carries no kind. -/
inductive Kind where
  | map
  | reduce
  deriving DecidableEq, Repr

/-- Durations and clock readings are in nanoseconds. -/
def second : Nat := 1000000000

/-- A task without its lock: see `Job.Locked`. The zero `timestamp` lies before any clock reading by more than
    the age of a report. -/
structure Task where
  filename : String
  state : TaskState
  timestamp : Option Nat
  deriving DecidableEq, Repr

structure AskReply where
  kind : Option Kind := none
  file : String := ""
  splite : Nat := 0
  nReduce : Nat := 0
  index : Nat := 0
  deriving DecidableEq, Repr

structure ResponseArgs where
  kind : Kind
  index : Nat
  deriving DecidableEq, Repr

structure Master where
  mapRemain : Int
  reduceRemain : Int
  mtasks : List Task
  rtasks : List Task
  deriving DecidableEq, Repr

namespace Task

/-- The section of `wait` after its sleep. -/
def wait (task : Task) : Task := if task.state = .completed then task else { task with state := .idle }

/-- What `HandleAsk` writes to the task that it hands out. -/
@[simps]
def handOut (task : Task) (now : Nat) : Task := { task with state := .inProgress, timestamp := some now }

/-- What `HandleResponse` writes to a task. -/
@[simps]
def complete (task : Task) : Task := { task with state := .completed }

/-- The test of `HandleResponse`: `now` is before `timestamp` plus 10 seconds. -/
def onTime (task : Task) (now : Nat) : Bool :=
  match task.timestamp with
  | none => false
  | some timestamp => now < timestamp + 10 * second

end Task

namespace Master

/-- `MakeMaster`. -/
def make (files : List String) (nReduce : Nat) : Master where
  mapRemain := files.length
  reduceRemain := nReduce
  mtasks := files.map fun file => ⟨file, .idle, none⟩
  rtasks := List.replicate nReduce ⟨"", .idle, none⟩

/-- The table of the tasks of a kind, `mtasks` or `rtasks`. -/
def tasks (m : Master) : Kind → List Task
  | .map => m.mtasks
  | .reduce => m.rtasks

/-- The counter of a kind, `map_remain` or `reduce_remain`. -/
def remain (m : Master) : Kind → Int
  | .map => m.mapRemain
  | .reduce => m.reduceRemain

def setTask (m : Master) (kind : Kind) (i : Nat) (task : Task) : Master :=
  match kind with
  | .map => { m with mtasks := m.mtasks.set i task }
  | .reduce => { m with rtasks := m.rtasks.set i task }

/-- `m.map_remain--` or `m.reduce_remain--`. -/
def decrement (m : Master) : Kind → Master
  | .map => { m with mapRemain := m.mapRemain - 1 }
  | .reduce => { m with reduceRemain := m.reduceRemain - 1 }

/-- The kind of task that `HandleAsk` looks for. -/
def wanted (m : Master) : Kind := if m.mapRemain ≠ 0 then .map else .reduce

/-- The reply of `HandleAsk` for the task that it hands out. -/
def reply (m : Master) (kind : Kind) (i : Nat) (task : Task) : AskReply :=
  match kind with
  | .map => { kind := some .map, file := task.filename, nReduce := m.rtasks.length, index := i }
  | .reduce => { kind := some .reduce, splite := m.mtasks.length, index := i }

/-- `Done`. -/
def done (m : Master) : Bool := m.reduceRemain = 0

end Master

/-! ### Goroutines -/

/-- A `HandleAsk` in its loop over the tasks of `kind`. It holds the locks of the tasks before `next`, which it
    found not idle, until it returns. -/
structure Ask where
  kind : Kind
  next : Nat
  deriving DecidableEq, Repr

/-- A `wait` that was started at `since`. -/
structure Wait where
  kind : Kind
  index : Nat
  since : Nat
  deriving DecidableEq, Repr

/-- A worker that got `reply` at `time`, and whether it has reported since. -/
structure Assignment where
  reply : AskReply
  time : Nat
  reported : Bool
  deriving DecidableEq, Repr

/-- How far a `HandleResponse` has come: it has read the clock, found the report on time, or completed the task and
    not yet counted it. -/
inductive ResponseStage where
  | received
  | accepted
  | completed
  deriving DecidableEq, Repr

structure Response where
  args : ResponseArgs
  now : Nat
  stage : ResponseStage
  deriving DecidableEq, Repr

structure Job where
  master : Master
  clock : Nat
  asks : List Ask
  waits : List Wait
  assignments : List Assignment
  responses : List Response
  deriving DecidableEq, Repr

/-- What a worker reports after it performed the task of a reply. -/
def AskReply.response (reply : AskReply) : Option ResponseArgs := reply.kind.map fun kind => ⟨kind, reply.index⟩

namespace Job

/-- A master that was just made, at some time of the clock. -/
def init (files : List String) (nReduce now : Nat) : Job where
  master := Master.make files nReduce
  clock := now
  asks := []
  waits := []
  assignments := []
  responses := []

/-- Someone holds the lock of a task between two sections. -/
def Locked (s : Job) (kind : Kind) (i : Nat) : Prop := ∃ a ∈ s.asks, a.kind = kind ∧ i < a.next

instance (s : Job) (kind : Kind) (i : Nat) : Decidable (s.Locked kind i) :=
  inferInstanceAs (Decidable (∃ a ∈ s.asks, _))

inductive Action where
  | tick (d : Nat)
  | ask
  | scan (k : Nat)
  | wait (k : Nat)
  | report (k : Nat)
  | check (k : Nat)
  | complete (k : Nat)
  | decrement (k : Nat)
  deriving DecidableEq, Repr

/-! What the sections leave behind, one definition per way they end. -/

@[simps]
def tick (s : Job) (d : Nat) : Job := { s with clock := s.clock + d }

/-- `HandleAsk` has read `map_remain`. -/
@[simps]
def ask (s : Job) : Job := { s with asks := s.asks ++ [⟨s.master.wanted, 0⟩] }

/-- `HandleAsk` returns with kind "none". -/
@[simps]
def refuse (s : Job) (k : Nat) : Job := { s with asks := s.asks.eraseIdx k }

/-- The `k`-th `HandleAsk` goes on to the next task. -/
@[simps]
def pass (s : Job) (k : Nat) (a : Ask) : Job := { s with asks := s.asks.set k ⟨a.kind, a.next + 1⟩ }

/-- The `k`-th `HandleAsk` hands out the task at `next`, starts its `wait` and returns. -/
@[simps]
def handOut (s : Job) (k : Nat) (a : Ask) (task : Task) : Job :=
  { s with
    master := s.master.setTask a.kind a.next (task.handOut s.clock)
    asks := s.asks.eraseIdx k
    waits := s.waits ++ [⟨a.kind, a.next, s.clock⟩]
    assignments := s.assignments ++ [⟨s.master.reply a.kind a.next task, s.clock, false⟩] }

/-- The `k`-th `wait` is over. -/
@[simps]
def expire (s : Job) (k : Nat) (w : Wait) (task : Task) : Job :=
  { s with master := s.master.setTask w.kind w.index task.wait, waits := s.waits.eraseIdx k }

/-- The `k`-th worker reports; `HandleResponse` reads the clock. -/
@[simps]
def report (s : Job) (k : Nat) (a : Assignment) (args : ResponseArgs) : Job :=
  { s with
    assignments := s.assignments.set k ⟨a.reply, a.time, true⟩
    responses := s.responses ++ [⟨args, s.clock, .received⟩] }

/-- The `k`-th report is on time. -/
@[simps]
def accept (s : Job) (k : Nat) (r : Response) : Job :=
  { s with responses := s.responses.set k ⟨r.args, r.now, .accepted⟩ }

/-- The `k`-th report is ignored. -/
@[simps]
def ignore (s : Job) (k : Nat) : Job := { s with responses := s.responses.eraseIdx k }

/-- The task of the `k`-th report is completed. -/
@[simps]
def complete (s : Job) (k : Nat) (r : Response) (task : Task) : Job :=
  { s with
    master := s.master.setTask r.args.kind r.args.index task.complete
    responses := s.responses.set k ⟨r.args, r.now, .completed⟩ }

/-- The task of the `k`-th report is counted, and `HandleResponse` returns. -/
@[simps]
def decrement (s : Job) (k : Nat) (r : Response) : Job :=
  { s with master := s.master.decrement r.args.kind, responses := s.responses.eraseIdx k }

/-- The state after a section; `none` when it cannot run now. -/
def step (s : Job) : Action → Option Job
  | .tick d => some (s.tick d)
  | .ask => some s.ask
  | .scan k =>
    match s.asks[k]? with
    | none => none
    | some a =>
      match (s.master.tasks a.kind)[a.next]? with
      | none => some (s.refuse k)
      | some task =>
        if s.Locked a.kind a.next then none
        else if task.state = .idle then some (s.handOut k a task)
        else some (s.pass k a)
  | .wait k =>
    match s.waits[k]? with
    | none => none
    | some w =>
      if s.clock < w.since + 10 * second ∨ s.Locked w.kind w.index then none
      else match (s.master.tasks w.kind)[w.index]? with
        | none => none
        | some task => some (s.expire k w task)
  | .report k =>
    match s.assignments[k]? with
    | none => none
    | some a =>
      match a.reply.response with
      | none => none
      | some args => if a.reported then none else some (s.report k a args)
  | .check k =>
    match s.responses[k]? with
    | none => none
    | some r =>
      if r.stage ≠ .received then none
      else match (s.master.tasks r.args.kind)[r.args.index]? with
        | none => none
        | some task => if task.onTime r.now then some (s.accept k r) else some (s.ignore k)
  | .complete k =>
    match s.responses[k]? with
    | none => none
    | some r =>
      if r.stage ≠ .accepted ∨ s.Locked r.args.kind r.args.index then none
      else match (s.master.tasks r.args.kind)[r.args.index]? with
        | none => none
        | some task => some (s.complete k r task)
  | .decrement k =>
    match s.responses[k]? with
    | none => none
    | some r => if r.stage ≠ .completed then none else some (s.decrement k r)

/-- What a section does, with what it found. -/
inductive Stepped (s : Job) : Action → Job → Prop where
  | tick {d : Nat} : Stepped s (.tick d) (s.tick d)
  | ask : Stepped s .ask s.ask
  | refuse {k : Nat} {a : Ask} (ha : s.asks[k]? = some a) (hend : (s.master.tasks a.kind)[a.next]? = none) :
      Stepped s (.scan k) (s.refuse k)
  | handOut {k : Nat} {a : Ask} {task : Task} (ha : s.asks[k]? = some a)
      (htask : (s.master.tasks a.kind)[a.next]? = some task) (hfree : ¬ s.Locked a.kind a.next)
      (hidle : task.state = .idle) : Stepped s (.scan k) (s.handOut k a task)
  | pass {k : Nat} {a : Ask} {task : Task} (ha : s.asks[k]? = some a)
      (htask : (s.master.tasks a.kind)[a.next]? = some task) (hfree : ¬ s.Locked a.kind a.next)
      (hbusy : task.state ≠ .idle) : Stepped s (.scan k) (s.pass k a)
  | expire {k : Nat} {w : Wait} {task : Task} (hw : s.waits[k]? = some w) (hover : w.since + 10 * second ≤ s.clock)
      (hfree : ¬ s.Locked w.kind w.index) (htask : (s.master.tasks w.kind)[w.index]? = some task) :
      Stepped s (.wait k) (s.expire k w task)
  | report {k : Nat} {a : Assignment} {args : ResponseArgs} (ha : s.assignments[k]? = some a)
      (hargs : a.reply.response = some args) (hnew : a.reported = false) : Stepped s (.report k) (s.report k a args)
  | accept {k : Nat} {r : Response} {task : Task} (hr : s.responses[k]? = some r) (hst : r.stage = .received)
      (htask : (s.master.tasks r.args.kind)[r.args.index]? = some task) (htime : task.onTime r.now = true) :
      Stepped s (.check k) (s.accept k r)
  | ignore {k : Nat} {r : Response} {task : Task} (hr : s.responses[k]? = some r) (hst : r.stage = .received)
      (htask : (s.master.tasks r.args.kind)[r.args.index]? = some task) (htime : task.onTime r.now = false) :
      Stepped s (.check k) (s.ignore k)
  | complete {k : Nat} {r : Response} {task : Task} (hr : s.responses[k]? = some r) (hst : r.stage = .accepted)
      (hfree : ¬ s.Locked r.args.kind r.args.index)
      (htask : (s.master.tasks r.args.kind)[r.args.index]? = some task) : Stepped s (.complete k) (s.complete k r task)
  | decrement {k : Nat} {r : Response} (hr : s.responses[k]? = some r) (hst : r.stage = .completed) :
      Stepped s (.decrement k) (s.decrement k r)

theorem step_inv {s s' : Job} {a : Action} (h : s.step a = some s') : Stepped s a s' := by
  cases a with
  | tick d =>
    cases h
    exact .tick
  | ask =>
    cases h
    exact .ask
  | scan k =>
    simp only [step] at h
    split at h
    · cases h
    · rename_i a ha
      split at h
      · rename_i hend
        cases h
        exact .refuse ha hend
      · rename_i task htask
        split at h
        · cases h
        · rename_i hfree
          split at h
          · rename_i hidle
            cases h
            exact .handOut ha htask hfree hidle
          · rename_i hbusy
            cases h
            exact .pass ha htask hfree hbusy
  | wait k =>
    simp only [step] at h
    split at h
    · cases h
    · rename_i w hw
      split at h
      · cases h
      · rename_i hno
        rw [not_or, Nat.not_lt] at hno
        split at h
        · cases h
        · rename_i task htask
          cases h
          exact .expire hw hno.1 hno.2 htask
  | report k =>
    simp only [step] at h
    split at h
    · cases h
    · rename_i a ha
      split at h
      · cases h
      · rename_i args hargs
        split at h
        · cases h
        · rename_i hnew
          cases h
          exact .report ha hargs (Bool.eq_false_iff.mpr hnew)
  | check k =>
    simp only [step] at h
    split at h
    · cases h
    · rename_i r hr
      split at h
      · cases h
      · rename_i hst
        split at h
        · cases h
        · rename_i task htask
          split at h
          · rename_i htime
            cases h
            exact .accept hr (Decidable.not_not.mp hst) htask htime
          · rename_i htime
            cases h
            exact .ignore hr (Decidable.not_not.mp hst) htask (Bool.eq_false_iff.mpr htime)
  | complete k =>
    simp only [step] at h
    split at h
    · cases h
    · rename_i r hr
      split at h
      · cases h
      · rename_i hno
        rw [not_or, Decidable.not_not] at hno
        split at h
        · cases h
        · rename_i task htask
          cases h
          exact .complete hr hno.1 hno.2 htask
  | decrement k =>
    simp only [step] at h
    split at h
    · cases h
    · rename_i r hr
      split at h
      · cases h
      · rename_i hst
        cases h
        exact .decrement hr (Decidable.not_not.mp hst)

/-- A run whose steps all meet `P`. -/
def Steps (P : Job → Action → Prop) : Job → Job → Prop := Run.Steps step P

/-- Reached from a master that was just made. -/
def Reachable (files : List String) (nReduce : Nat) (P : Job → Action → Prop) (s : Job) : Prop :=
  ∃ now, Steps P (init files nReduce now) s

end Job

/-! ### Tables and counters -/

namespace Master

variable (m : Master) (kind : Kind)

theorem tasks_setTask (kind' : Kind) (i : Nat) (task : Task) :
    (m.setTask kind i task).tasks kind' = if kind' = kind then (m.tasks kind').set i task else m.tasks kind' := by
  cases kind <;> cases kind' <;> rfl

@[simp] theorem remain_setTask (kind' : Kind) (i : Nat) (task : Task) :
    (m.setTask kind i task).remain kind' = m.remain kind' := by
  cases kind <;> cases kind' <;> rfl

@[simp] theorem tasks_decrement (kind' : Kind) : (m.decrement kind).tasks kind' = m.tasks kind' := by
  cases kind <;> cases kind' <;> rfl

theorem remain_decrement (kind' : Kind) :
    (m.decrement kind).remain kind' = if kind' = kind then m.remain kind' - 1 else m.remain kind' := by
  cases kind <;> cases kind' <;> rfl

@[simp] theorem reply_kind (i : Nat) (task : Task) : (m.reply kind i task).kind = some kind := by
  cases kind <;> rfl

@[simp] theorem reply_index (i : Nat) (task : Task) : (m.reply kind i task).index = i := by
  cases kind <;> rfl

theorem done_iff : m.done = true ↔ m.remain .reduce = 0 := by
  simp [done, remain]

end Master

namespace Job

variable {s s' : Job} {a : Action}

/-! ### Indices -/

theorem Stepped.tasks_length (h : Stepped s a s') (kind : Kind) :
    (s'.master.tasks kind).length = (s.master.tasks kind).length := by
  have set : ∀ (kind' : Kind) (i : Nat) (task : Task),
      ((s.master.setTask kind' i task).tasks kind).length = (s.master.tasks kind).length := by
    intro kind' i task
    rw [Master.tasks_setTask]
    split
    · exact List.length_set
    · rfl
  cases h with
  | handOut => exact set _ _ _
  | expire => exact set _ _ _
  | complete => exact set _ _ _
  | decrement => simp
  | _ => rfl

/-- Every index that a goroutine or a worker holds is one of the table it is for. -/
structure InRange (s : Job) : Prop where
  waits : ∀ w ∈ s.waits, w.index < (s.master.tasks w.kind).length
  assignments : ∀ a ∈ s.assignments, ∀ args, a.reply.response = some args →
    args.index < (s.master.tasks args.kind).length
  responses : ∀ r ∈ s.responses, r.args.index < (s.master.tasks r.args.kind).length

theorem inRange_init (files : List String) (nReduce now : Nat) : (init files nReduce now).InRange where
  waits w hw := by cases hw
  assignments a ha := by cases ha
  responses r hr := by cases hr

theorem InRange.step (h : s.InRange) (hs : Stepped s a s') : s'.InRange := by
  refine ⟨fun w hw => ?_, fun b hb args hargs => ?_, fun r hr => ?_⟩ <;> rw [hs.tasks_length]
  · cases hs with
    | handOut _ htask =>
      rcases List.mem_append.mp hw with hw | hw
      · exact h.waits w hw
      · cases List.mem_singleton.mp hw
        exact (List.getElem?_eq_some_iff.mp htask).1
    | expire => exact h.waits w (List.mem_of_mem_eraseIdx hw)
    | _ => exact h.waits w hw
  · cases hs with
    | handOut _ htask =>
      rcases List.mem_append.mp hb with hb | hb
      · exact h.assignments b hb args hargs
      · cases List.mem_singleton.mp hb
        simp only [AskReply.response, Master.reply_kind, Master.reply_index, Option.map_some, Option.some.injEq] at hargs
        subst hargs
        exact (List.getElem?_eq_some_iff.mp htask).1
    | report ha =>
      rcases List.mem_or_eq_of_mem_set hb with hb | rfl
      · exact h.assignments b hb args hargs
      · exact h.assignments _ (List.mem_of_getElem? ha) args hargs
    | _ => exact h.assignments b hb args hargs
  · cases hs with
    | report ha hargs =>
      rcases List.mem_append.mp hr with hr | hr
      · exact h.responses r hr
      · cases List.mem_singleton.mp hr
        exact h.assignments _ (List.mem_of_getElem? ha) _ hargs
    | @accept _ r' _ hr' =>
      rcases List.mem_or_eq_of_mem_set hr with hr | rfl
      · exact h.responses r hr
      · exact h.responses r' (List.mem_of_getElem? hr')
    | @complete _ r' _ hr' =>
      rcases List.mem_or_eq_of_mem_set hr with hr | rfl
      · exact h.responses r hr
      · exact h.responses r' (List.mem_of_getElem? hr')
    | ignore => exact h.responses r (List.mem_of_mem_eraseIdx hr)
    | decrement => exact h.responses r (List.mem_of_mem_eraseIdx hr)
    | _ => exact h.responses r hr

/-- `HandleResponse` never looks outside its tables: a report that arrived is found on time or ignored. -/
theorem Reachable.check_possible {files : List String} {nReduce : Nat} {P : Job → Action → Prop}
    (h : Reachable files nReduce P s) {k : Nat} {r : Response} (hr : s.responses[k]? = some r)
    (hst : r.stage = .received) : ∃ s', s.step (.check k) = some s' := by
  obtain ⟨now, h⟩ := h
  have hin := Run.Steps.keeps (fun s s' a hi _ hs => hi.step (step_inv hs)) h (inRange_init files nReduce now)
  have htask := List.getElem?_eq_getElem (hin.responses r (List.mem_of_getElem? hr))
  simp only [step, hr, hst, htask, ne_eq, not_true_eq_false, ↓reduceIte]
  split
  · exact ⟨_, rfl⟩
  · exact ⟨_, rfl⟩

end Job

end DistributedLabs.MapReduce
