import DistributedLabs.Lib.FileSystem
import DistributedLabs.Lib.Table
import Mathlib.Data.List.Basic

/-! Publication by renaming: an output is written chunk by chunk to a temporary file of its own, which then takes the
    final name of the output. Executions that work at once may share outputs and so temporary files. -/

namespace Publication

open FileSystem Table

variable {O B : Type}

/-- The two names of an output. -/
inductive Name (O : Type) where
  | temp (o : O)
  | final (o : O)
  deriving DecidableEq, Repr

/-- The operations that publish one output. -/
def publish (o : O) (chunks : List (List B)) : List (Op (Name O) B) :=
  .openTemp (.temp o) :: (chunks.map .write ++ [.rename (.temp o) (.final o)])

/-- The outputs of an execution, one after the other. -/
def publishAll (outputs : List (O × List (List B))) : List (Op (Name O) B) :=
  outputs.flatMap fun x => publish x.1 x.2

theorem publishAll_cons (o : O) (chunks : List (List B)) (outputs : List (O × List (List B))) :
    publishAll ((o, chunks) :: outputs) =
      .openTemp (.temp o) :: (chunks.map .write ++ .rename (.temp o) (.final o) :: publishAll outputs) := by
  simp [publishAll, publish]

/-! ### An execution alone -/

section Alone
variable [DecidableEq O] {p : Process (Name O) B} {fs : FS (Name O) B} {rest : List (Op (Name O) B)}

theorem writes_reach {chunks : List (List B)} {h : Handle (Name O)} {written : List B}
    (htodo : p.todo = chunks.map .write ++ rest) (hfile : p.file = some h) (hoffset : h.offset = written.length)
    (hdata : fs.data h.inode = written) :
    ∃ h', h'.name = h.name ∧ Process.Reaches (p, fs)
      (⟨rest, some h', p.defers, p.ok⟩, fs.setData h.inode (written ++ chunks.flatten)) := by
  induction chunks generalizing p fs h written with
  | nil =>
    refine ⟨h, rfl, ?_⟩
    rw [List.flatten_nil, List.append_nil, ← hdata, FS.setData_self, ← hfile]
    rw [List.map_nil, List.nil_append] at htodo
    rw [← htodo]
    exact .refl
  | cons chunk chunks ih =>
    have hstep : p.step fs = some (p.wrote (chunks.map .write ++ rest) h chunk.length,
        fs.setData h.inode (written ++ chunk)) := by
      have hover := overwrite_append written [] chunk
      simp only [List.append_nil, List.drop_nil] at hover
      simp only [Process.step, htodo, List.map_cons, List.cons_append, hfile, FS.write, hdata, hoffset, hover]
    obtain ⟨h', hname, hreach⟩ := @ih (p.wrote (chunks.map .write ++ rest) h chunk.length)
      (fs.setData h.inode (written ++ chunk)) _ (written ++ chunk) rfl rfl (by simp [hoffset]) (by simp)
    rw [FS.setData_setData, List.append_assoc, ← List.flatten_cons] at hreach
    exact ⟨h', hname, .head hstep hreach⟩

/-- One output is published: its temporary file is gone, its final file is complete, and nothing else has changed. -/
theorem publish_reaches {o : O} {chunks : List (List B)} (htodo : p.todo = publish o chunks ++ rest)
    (hnone : fs.names (.temp o) = none) :
    ∃ fs', Process.Reaches (p, fs) (⟨rest, none, .temp o :: p.defers, p.ok⟩, fs') ∧ fs'.names (.temp o) = none ∧
      fs'.read (.final o) = some chunks.flatten ∧
      ∀ name, name ≠ .temp o → name ≠ .final o → fs'.names name = fs.names name ∧ fs'.read name = fs.read name := by
  have hopen : p.step fs = some (p.opened (chunks.map .write ++ .rename (.temp o) (.final o) :: rest) (.temp o) fs.next,
      fs.create (.temp o)) := by
    simp [Process.step, htodo, publish, FS.openFile, hnone]
  have hempty : (fs.create (.temp o)).data fs.next = [] := by simp
  obtain ⟨h, -, hwrites⟩ := writes_reach
    (p := p.opened (chunks.map .write ++ .rename (.temp o) (.final o) :: rest) (.temp o) fs.next) rfl rfl rfl hempty
  have hrename : Process.step ⟨.rename (.temp o) (.final o) :: rest, some h, .temp o :: p.defers, p.ok⟩
      ((fs.create (.temp o)).setData fs.next chunks.flatten) =
      some (⟨rest, none, .temp o :: p.defers, p.ok⟩,
        ((fs.create (.temp o)).setData fs.next chunks.flatten).move (.temp o) (.final o)) := by
    simp [Process.step, FS.rename, Process.renamed]
  refine ⟨((fs.create (.temp o)).setData fs.next chunks.flatten).move (.temp o) (.final o),
    Relation.ReflTransGen.head hopen (Relation.ReflTransGen.tail hwrites hrename), ?_, ?_, fun name ht hf => ?_⟩
  · simp
  · simp [FS.read]
  · have hnames : (((fs.create (.temp o)).setData fs.next chunks.flatten).move (.temp o) (.final o)).names name =
        fs.names name := by
      simp [ht, hf]
    refine ⟨hnames, ?_⟩
    rw [FS.read, hnames, FS.read]
    cases hn : fs.names name with
    | none => rfl
    | some inode =>
      have hne : inode ≠ fs.next := Nat.ne_of_lt (fs.bounded name inode hn)
      simp [hne]

/-- The directory after a lone execution: no temporary file is left, every output is complete under its final name,
    and the other final names stand for what they did. -/
structure Published (fs : FS (Name O) B) (outputs : List (O × List (List B))) (fs' : FS (Name O) B) : Prop where
  temps : ∀ o, fs'.names (.temp o) = none
  finals : ∀ x ∈ outputs, fs'.read (.final x.1) = some x.2.flatten
  others : ∀ o, o ∉ outputs.map Prod.fst → fs'.read (.final o) = fs.read (.final o)

theorem publishAll_reaches {outputs : List (O × List (List B))} (htodo : p.todo = publishAll outputs)
    (hfile : p.file = none) (htemps : ∀ o, fs.names (.temp o) = none) (hdefers : ∀ name ∈ p.defers, ∃ o, name = .temp o)
    (hnodup : (outputs.map Prod.fst).Nodup) :
    ∃ fs' defers, Process.Reaches (p, fs) (⟨[], none, defers, p.ok⟩, fs') ∧ (∀ name ∈ defers, ∃ o, name = .temp o) ∧
      Published fs outputs fs' := by
  induction outputs generalizing p fs with
  | nil =>
    refine ⟨fs, p.defers, ?_, hdefers, htemps, fun x hx => (by cases hx), fun o _ => rfl⟩
    have htodo : p.todo = [] := htodo
    have hp : (⟨[], none, p.defers, p.ok⟩ : Process (Name O) B) = p := by
      rw [← hfile, ← htodo]
    rw [hp]
    exact .refl
  | cons x outputs ih =>
    obtain ⟨o, chunks⟩ := x
    rw [List.map_cons, List.nodup_cons] at hnodup
    obtain ⟨fs₁, hreach₁, htemp, hfinal, hkept⟩ := publish_reaches (o := o)
      (show p.todo = publish o chunks ++ publishAll outputs from htodo) (htemps o)
    have htemps₁ : ∀ o', fs₁.names (.temp o') = none := by
      intro o'
      by_cases ho : o' = o
      · rw [ho, htemp]
      · rw [(hkept (.temp o') (by simpa using ho) (by simp)).1, htemps]
    obtain ⟨fs₂, defers, hreach₂, hdefers₂, htemps₂, hfinals₂, hothers₂⟩ := ih
      (p := ⟨publishAll outputs, none, .temp o :: p.defers, p.ok⟩) rfl rfl htemps₁
      (fun name hname => by
        rcases List.mem_cons.mp hname with rfl | hname
        · exact ⟨o, rfl⟩
        · exact hdefers name hname) hnodup.2
    refine ⟨fs₂, defers, Relation.ReflTransGen.trans hreach₁ hreach₂, hdefers₂, htemps₂, fun y hy => ?_, fun o' ho' => ?_⟩
    · rcases List.mem_cons.mp hy with rfl | hy
      · rw [hothers₂ _ hnodup.1, hfinal]
      · exact hfinals₂ y hy
    · rw [List.map_cons, List.mem_cons, not_or] at ho'
      rw [hothers₂ o' ho'.2, (hkept (.final o') (by simp) (by simpa using ho'.1)).2]

theorem removes_reach {defers : List (Name O)} {ok : Bool} (h : ∀ name ∈ defers, fs.names name = none) :
    Process.Reaches (⟨[], none, defers, ok⟩, fs) (⟨[], none, [], ok⟩, fs) := by
  induction defers with
  | nil => exact .refl
  | cons name names ih =>
    have hstep : Process.step ⟨[], none, name :: names, ok⟩ fs = some (⟨[], none, names, ok⟩, fs) := by
      simp only [Process.step, FS.remove_of_none (h name List.mem_cons_self), Process.removed]
    exact .head hstep (ih fun n hn => h n (List.mem_cons_of_mem _ hn))

/-- A lone execution in a directory without temporary files publishes all its outputs. -/
theorem complete_publishAll (outputs : List (O × List (List B))) (htemps : ∀ o, fs.names (.temp o) = none)
    (hnodup : (outputs.map Prod.fst).Nodup) :
    ∃ fs', (Process.start (publishAll outputs)).complete fs = (fs', true) ∧ Published fs outputs fs' := by
  obtain ⟨fs', defers, hreach, hdefers, hpub⟩ := publishAll_reaches (p := Process.start (publishAll outputs)) rfl rfl
    htemps (fun name hname => by cases hname) hnodup
  refine ⟨fs', ?_, hpub⟩
  refine Process.complete_of_reaches (Relation.ReflTransGen.trans hreach (removes_reach fun name hname => ?_)) rfl
  obtain ⟨o, rfl⟩ := hdefers name hname
  exact hpub.temps o

end Alone

/-! ### Executions at once -/

structure Execution (O B : Type) where
  outputs : List (O × List (List B))
  process : Process (Name O) B
  alive : Bool
  deriving DecidableEq, Repr

/-- A directory and all executions that were ever started on it. -/
structure Pool (O B : Type) where
  fs : FS (Name O) B
  executions : List (Execution O B)

namespace Pool

inductive Action (O B : Type) where
  | start (outputs : List (O × List (List B)))
  | step (k : Nat)
  | crash (k : Nat)
  deriving DecidableEq, Repr

/-- An execution whose outputs are known begins to publish them. -/
@[simps]
def start (s : Pool O B) (outputs : List (O × List (List B))) : Pool O B where
  fs := s.fs
  executions := s.executions ++ [⟨outputs, .start (publishAll outputs), true⟩]

/-- The `k`-th execution has performed an operation. -/
@[simps]
def advance (s : Pool O B) (k : Nat) (x : Execution O B) (p : Process (Name O) B) (fs : FS (Name O) B) : Pool O B where
  fs := fs
  executions := s.executions.set k ⟨x.outputs, p, x.alive⟩

@[simps]
def crash (s : Pool O B) (k : Nat) (x : Execution O B) : Pool O B where
  fs := s.fs
  executions := s.executions.set k ⟨x.outputs, x.process, false⟩

def step [DecidableEq O] (s : Pool O B) : Action O B → Option (Pool O B)
  | .start outputs => some (s.start outputs)
  | .step k =>
    match s.executions[k]? with
    | none => none
    | some x =>
      if x.alive then
        match x.process.step s.fs with
        | none => none
        | some (p, fs) => some (s.advance k x p fs)
      else none
  | .crash k =>
    match s.executions[k]? with
    | none => none
    | some x => some (s.crash k x)

inductive Stepped [DecidableEq O] (s : Pool O B) : Action O B → Pool O B → Prop where
  | start {outputs : List (O × List (List B))} : Stepped s (.start outputs) (s.start outputs)
  | advance {k : Nat} {x : Execution O B} {p : Process (Name O) B} {fs : FS (Name O) B}
      (hx : s.executions[k]? = some x) (halive : x.alive = true) (hp : Process.Stepped x.process s.fs p fs) :
      Stepped s (.step k) (s.advance k x p fs)
  | crash {k : Nat} {x : Execution O B} (hx : s.executions[k]? = some x) : Stepped s (.crash k) (s.crash k x)

theorem step_inv [DecidableEq O] {s s' : Pool O B} {a : Action O B} (h : s.step a = some s') : Stepped s a s' := by
  cases a with
  | start outputs =>
    cases h
    exact .start
  | step k =>
    simp only [step] at h
    split at h
    · cases h
    · rename_i x hx
      split at h
      · rename_i halive
        split at h
        · cases h
        · rename_i p fs hp
          cases h
          exact .advance hx halive (Process.step_inv hp)
      · cases h
  | crash k =>
    simp only [step] at h
    split at h
    · cases h
    · rename_i x hx
      cases h
      exact .crash hx

/-- The bytes that are written next, up to the next operation of another kind. -/
def pending : List (Op (Name O) B) → List B
  | .write chunk :: ops => chunk ++ pending ops
  | _ => []

/-- The file that an action opens, and the operations after it. -/
def opening (s : Pool O B) : Action O B → Option (Name O × List (Op (Name O) B))
  | .step k =>
    match s.executions[k]? with
    | none => none
    | some x =>
      match x.process.todo with
      | .openTemp name :: todo => some (name, todo)
      | _ => none
  | _ => none

/-- A temporary file is opened while no live execution is between opening and renaming it, and one that is left over
    is not longer than what will be written over it. -/
def Exclusive (s : Pool O B) (a : Action O B) : Prop :=
  ∀ x ∈ s.opening a,
    (∀ y ∈ s.executions, y.alive = true → ∀ h ∈ y.process.file, h.name ≠ x.1) ∧
    ∀ inode ∈ s.fs.names x.1, (s.fs.data inode).length ≤ (pending x.2).length

instance [DecidableEq O] (s : Pool O B) (a : Action O B) : Decidable (s.Exclusive a) :=
  inferInstanceAs (Decidable (∀ x ∈ s.opening a, _))

/-! ### The invariant -/

theorem pending_writes (chunks : List (List B)) (o : O) (ops : List (Op (Name O) B)) :
    pending (chunks.map .write ++ .rename (.temp o) (.final o) :: ops) = chunks.flatten := by
  induction chunks with
  | nil => rfl
  | cons chunk chunks ih => simp only [List.map_cons, List.cons_append, pending, ih, List.flatten_cons]

/-- An execution has written `written` of an output to its open file `h` and has `rest` still to write: its part of
    the file is there, what follows will be written over, and the file has no name but the temporary one. -/
structure Writing (fs : FS (Name O) B) (o : O) (h : Handle (Name O)) (written rest : List (List B)) : Prop where
  name : h.name = .temp o
  offset : h.offset = written.flatten.length
  data : ∃ tail, fs.data h.inode = written.flatten ++ tail ∧ tail.length ≤ rest.flatten.length
  named : fs.names h.name = some h.inode ∨ fs.names h.name = none
  only : ∀ name, fs.names name = some h.inode → name = h.name
  bound : h.inode < fs.next

/-- A live execution is between two outputs, or is writing one. -/
inductive Stage (fs : FS (Name O) B) (x : Execution O B) : Prop where
  | between {later : List (O × List (List B))} (hfile : x.process.file = none)
      (htodo : x.process.todo = publishAll later) (hlater : ∀ y ∈ later, y ∈ x.outputs)
  | writing {o : O} {h : Handle (Name O)} {written rest : List (List B)} {later : List (O × List (List B))}
      (hfile : x.process.file = some h)
      (htodo : x.process.todo = rest.map .write ++ .rename (.temp o) (.final o) :: publishAll later)
      (hlater : ∀ y ∈ later, y ∈ x.outputs) (hout : (o, written ++ rest) ∈ x.outputs) (hw : Writing fs o h written rest)

/-- Everything under a final name is the complete output of one execution, and no two live executions write to one
    temporary file. -/
structure Sound (s : Pool O B) : Prop where
  finals : ∀ o inode, s.fs.names (.final o) = some inode →
    ∃ outputs ∈ s.executions.map Execution.outputs, ∃ chunks, (o, chunks) ∈ outputs ∧ s.fs.data inode = chunks.flatten
  stages : ∀ (k : Nat) x, s.executions[k]? = some x → x.alive = true → Stage s.fs x
  apart : ∀ (j k : Nat) x y hx hy, s.executions[j]? = some x → s.executions[k]? = some y → j ≠ k → x.alive = true →
    y.alive = true → x.process.file = some hx → y.process.file = some hy → hx.name ≠ hy.name ∧ hx.inode ≠ hy.inode

/-- What the operation of another execution leaves of an open file. -/
structure Spared (fs fs' : FS (Name O) B) (h : Handle (Name O)) : Prop where
  name : fs'.names h.name = fs.names h.name ∨ fs'.names h.name = none
  data : fs'.data h.inode = fs.data h.inode
  only : ∀ name, fs'.names name = some h.inode → fs.names name = some h.inode
  next : fs.next ≤ fs'.next

variable {fs fs' : FS (Name O) B} {x : Execution O B}

theorem Writing.spared {o : O} {h : Handle (Name O)} {written rest : List (List B)} (hw : Writing fs o h written rest)
    (hs : Spared fs fs' h) : Writing fs' o h written rest := by
  refine ⟨hw.name, hw.offset, ?_, ?_, fun name hn => hw.only name (hs.only name hn), Nat.lt_of_lt_of_le hw.bound hs.next⟩
  · rw [hs.data]
    exact hw.data
  · rcases hs.name with hn | hn
    · rw [hn]
      exact hw.named
    · exact Or.inr hn

theorem Stage.spared (h : Stage fs x) (hs : ∀ h, x.process.file = some h → Spared fs fs' h) : Stage fs' x := by
  cases h with
  | between hfile htodo hlater => exact .between hfile htodo hlater
  | writing hfile htodo hlater hout hw => exact .writing hfile htodo hlater hout (hw.spared (hs _ hfile))

/-- An execution that opens a file is between two outputs, and begins the next one. -/
theorem Stage.opens (h : Stage fs x) {name : Name O} {todo : List (Op (Name O) B)}
    (htodo : x.process.todo = .openTemp name :: todo) :
    ∃ o chunks later, name = .temp o ∧ todo = chunks.map .write ++ .rename (.temp o) (.final o) :: publishAll later ∧
      (o, chunks) ∈ x.outputs ∧ ∀ y ∈ later, y ∈ x.outputs := by
  cases h with
  | @between later hfile htodo' hlater =>
    rw [htodo] at htodo'
    cases later with
    | nil => cases htodo'
    | cons y later =>
      obtain ⟨o, chunks⟩ := y
      rw [publishAll_cons] at htodo'
      injection htodo' with hop htail
      injection hop with hname
      exact ⟨o, chunks, later, hname, htail, hlater _ List.mem_cons_self, fun y hy => hlater y (List.mem_cons_of_mem _ hy)⟩
  | @writing o h written rest later hfile htodo' =>
    rw [htodo] at htodo'
    cases rest <;> cases htodo'

theorem Stage.writes (h : Stage fs x) {chunk : List B} {todo : List (Op (Name O) B)}
    (htodo : x.process.todo = .write chunk :: todo) :
    ∃ o hd written rest later, x.process.file = some hd ∧
      todo = rest.map .write ++ .rename (.temp o) (.final o) :: publishAll later ∧ (∀ y ∈ later, y ∈ x.outputs) ∧
      (o, written ++ chunk :: rest) ∈ x.outputs ∧ Writing fs o hd written (chunk :: rest) := by
  cases h with
  | @between later _ htodo' =>
    rw [htodo] at htodo'
    cases later with
    | nil => cases htodo'
    | cons y later =>
      rw [publishAll_cons] at htodo'
      cases htodo'
  | @writing o hd written rest later hfile htodo' hlater hout hw =>
    rw [htodo] at htodo'
    cases rest with
    | nil => cases htodo'
    | cons chunk' rest =>
      injection htodo' with hop htail
      injection hop with hchunk
      subst hchunk
      exact ⟨o, hd, written, rest, later, hfile, htail, hlater, hout, hw⟩

theorem Stage.renames (h : Stage fs x) {old new : Name O} {todo : List (Op (Name O) B)}
    (htodo : x.process.todo = .rename old new :: todo) :
    ∃ o hd written later, x.process.file = some hd ∧ old = .temp o ∧ new = .final o ∧ todo = publishAll later ∧
      (∀ y ∈ later, y ∈ x.outputs) ∧ (o, written) ∈ x.outputs ∧ Writing fs o hd written [] := by
  cases h with
  | @between later _ htodo' =>
    rw [htodo] at htodo'
    cases later with
    | nil => cases htodo'
    | cons y later =>
      rw [publishAll_cons] at htodo'
      cases htodo'
  | @writing o hd written rest later hfile htodo' hlater hout hw =>
    rw [htodo] at htodo'
    cases rest with
    | nil =>
      injection htodo' with hop htail
      injection hop with hold hnew
      rw [List.append_nil] at hout
      exact ⟨o, hd, written, later, hfile, hold, hnew, htail, hlater, hout, hw⟩
    | cons chunk rest => cases htodo'

theorem Stage.ended (h : Stage fs x) (htodo : x.process.todo = []) : x.process.file = none := by
  cases h with
  | between hfile => exact hfile
  | writing _ htodo' =>
    rw [htodo] at htodo'
    simp at htodo'

theorem Stage.handle (h : Stage fs x) {hd : Handle (Name O)} (hfile : x.process.file = some hd) :
    ∃ o written rest, Writing fs o hd written rest := by
  cases h with
  | between hnone =>
    rw [hnone] at hfile
    cases hfile
  | writing hsome _ _ _ hw =>
    rw [hsome] at hfile
    cases hfile
    exact ⟨_, _, _, hw⟩

variable {s s' : Pool O B} {a : Action O B}

theorem outputs_set {l : List (Execution O B)} {k : Nat} (hx : l[k]? = some x) (p : Process (Name O) B) (alive : Bool) :
    (l.set k ⟨x.outputs, p, alive⟩).map Execution.outputs = l.map Execution.outputs := map_set_of_eq _ hx rfl

/-- The invariant after an operation of the `k`-th execution: it is at a new stage, the files that the others write
    are spared, and the file it has open now is none of theirs. -/
theorem Sound.advance {k : Nat} {p : Process (Name O) B} (h : s.Sound) (hx : s.executions[k]? = some x)
    (hstage : Stage fs' ⟨x.outputs, p, x.alive⟩)
    (hspared : ∀ (j : Nat) y hy, s.executions[j]? = some y → j ≠ k → y.alive = true → y.process.file = some hy →
      Spared s.fs fs' hy ∧ ∀ h', p.file = some h' → hy.name ≠ h'.name ∧ hy.inode ≠ h'.inode)
    (hfinals : ∀ o inode, fs'.names (.final o) = some inode →
      ∃ outputs ∈ s.executions.map Execution.outputs, ∃ chunks, (o, chunks) ∈ outputs ∧ fs'.data inode = chunks.flatten) :
    (s.advance k x p fs').Sound := by
  refine ⟨?_, ?_, ?_⟩
  · rw [advance_executions, outputs_set hx]
    exact hfinals
  · intro j y hy halive
    rcases getElem?_set_inv hy with ⟨-, rfl⟩ | ⟨hj, hy⟩
    · exact hstage
    · exact (h.stages j y hy halive).spared fun hd hfile => (hspared j y hd hy hj halive hfile).1
  · intro i j y z hy hz hiy hjz hij hay haz hfy hfz
    rcases getElem?_set_inv hiy with ⟨hi, rfl⟩ | ⟨hi, hiy⟩ <;> rcases getElem?_set_inv hjz with ⟨hj, rfl⟩ | ⟨hj, hjz⟩
    · exact absurd (hi.trans hj.symm) hij
    · exact ((hspared j z hz hjz hj haz hfz).2 hy hfy).imp Ne.symm Ne.symm
    · exact (hspared i y hy hiy hi hay hfy).2 hz hfz
    · exact h.apart i j y z hy hz hiy hjz hij hay haz hfy hfz

/-- An operation that the invariant allows and that leaves the directory as it is for everybody. -/
theorem Sound.quiet {k : Nat} {p : Process (Name O) B} (h : s.Sound) (hx : s.executions[k]? = some x)
    (hfile : p.file = none) (htodo : p.todo = []) (hnames : ∀ name, fs'.names name = s.fs.names name ∨ fs'.names name = none)
    (hdata : fs'.data = s.fs.data) (hnext : fs'.next = s.fs.next) : (s.advance k x p fs').Sound := by
  have back : ∀ {name inode}, fs'.names name = some inode → s.fs.names name = some inode := by
    intro name inode hn
    rcases hnames name with heq | heq
    · rw [← heq, hn]
    · rw [hn] at heq
      cases heq
  refine h.advance hx (.between hfile (show p.todo = publishAll [] from htodo) fun y hy => by cases hy) ?_ fun o inode hn => ?_
  · intro j y hy _ _ _ _
    refine ⟨⟨hnames _, by rw [hdata], fun name => back, Nat.le_of_eq hnext.symm⟩, fun h' hf => ?_⟩
    rw [hfile] at hf
    cases hf
  · rw [hdata]
    exact h.finals o inode (back hn)

/-- The files that live executions write are none that this one may open. -/
theorem Exclusive.opens {k : Nat} {name : Name O} {todo : List (Op (Name O) B)} (hg : s.Exclusive (.step k))
    (hx : s.executions[k]? = some x) (htodo : x.process.todo = .openTemp name :: todo) :
    (∀ (j : Nat) y hy, s.executions[j]? = some y → y.alive = true → y.process.file = some hy → hy.name ≠ name) ∧
    ∀ inode, s.fs.names name = some inode → (s.fs.data inode).length ≤ (pending todo).length := by
  obtain ⟨hnames, hshort⟩ := hg (name, todo) (by simp [opening, hx, htodo])
  exact ⟨fun j y hy hj ha hf => hnames y (List.mem_of_getElem? hj) ha hy hf, hshort⟩

theorem Sound.created [DecidableEq O] {k : Nat} {name : Name O} {todo : List (Op (Name O) B)} (h : s.Sound)
    (hg : s.Exclusive (.step k)) (hx : s.executions[k]? = some x) (halive : x.alive = true)
    (htodo : x.process.todo = .openTemp name :: todo) :
    (s.advance k x (x.process.opened todo name s.fs.next) (s.fs.create name)).Sound := by
  obtain ⟨o, chunks, later, rfl, rfl, hout, hlater⟩ := (h.stages k x hx halive).opens htodo
  obtain ⟨hothers, -⟩ := hg.opens hx htodo
  have fresh : ∀ {name inode}, s.fs.names name = some inode → inode ≠ s.fs.next :=
    fun hn => Nat.ne_of_lt (s.fs.bounded _ _ hn)
  have elsewhere : ∀ {name}, name ≠ .temp o → (s.fs.create (.temp o)).names name = s.fs.names name := by
    intro name hne
    rw [FS.create_names, Function.update_of_ne hne]
  refine h.advance hx (.writing rfl rfl hlater (show (o, [] ++ chunks) ∈ x.outputs from hout)
    ⟨rfl, rfl, ⟨[], ?_, Nat.zero_le _⟩, Or.inl ?_, ?_, ?_⟩) ?_ fun o' inode hn => ?_
  · simp
  · simp
  · intro name hn
    by_contra hne
    rw [elsewhere hne] at hn
    exact fresh hn rfl
  · exact Nat.lt_succ_self _
  · intro j y hy hj _ hay hfy
    have hne := hothers j y hy hj hay hfy
    obtain ⟨_, _, _, hw⟩ := (h.stages j y hj hay).handle hfy
    have hinode : hy.inode ≠ s.fs.next := Nat.ne_of_lt hw.bound
    refine ⟨⟨Or.inl (elsewhere hne), ?_, fun name hn => ?_, Nat.le_succ _⟩, fun h' hf => ?_⟩
    · rw [FS.create_data, Function.update_of_ne hinode]
    · by_cases hname : name = .temp o
      · rw [hname, FS.create_names, Function.update_self] at hn
        exact absurd (Option.some.inj hn).symm hinode
      · rwa [elsewhere hname] at hn
    · cases hf
      exact ⟨hne, hinode⟩
  · rw [elsewhere (by simp)] at hn
    rw [FS.create_data, Function.update_of_ne (fresh hn)]
    exact h.finals o' inode hn

theorem Sound.opened {k inode : Nat} {name : Name O} {todo : List (Op (Name O) B)} (h : s.Sound)
    (hg : s.Exclusive (.step k)) (hx : s.executions[k]? = some x) (halive : x.alive = true)
    (htodo : x.process.todo = .openTemp name :: todo) (hname : s.fs.names name = some inode) :
    (s.advance k x (x.process.opened todo name inode) s.fs).Sound := by
  obtain ⟨o, chunks, later, rfl, rfl, hout, hlater⟩ := (h.stages k x hx halive).opens htodo
  obtain ⟨hothers, hshort⟩ := hg.opens hx htodo
  have hlen := hshort inode hname
  rw [pending_writes] at hlen
  refine h.advance hx (.writing rfl rfl hlater (show (o, [] ++ chunks) ∈ x.outputs from hout)
    ⟨rfl, rfl, ⟨s.fs.data inode, rfl, hlen⟩, Or.inl hname, fun n hn => s.fs.unique n _ inode hn hname,
      s.fs.bounded _ _ hname⟩) ?_ h.finals
  intro j y hy hj _ hay hfy
  have hne := hothers j y hy hj hay hfy
  obtain ⟨_, _, _, hw⟩ := (h.stages j y hj hay).handle hfy
  refine ⟨⟨Or.inl rfl, rfl, fun _ => id, Nat.le_refl _⟩, fun h' hf => ?_⟩
  cases hf
  -- If the inode were that of another open file, the name would be that of the other too.
  refine ⟨hne, fun heq => hne (hw.only _ ?_).symm⟩
  rw [hname, heq]

theorem Sound.wrote {k : Nat} {chunk : List B} {hd : Handle (Name O)} {todo : List (Op (Name O) B)} (h : s.Sound)
    (hx : s.executions[k]? = some x) (halive : x.alive = true) (htodo : x.process.todo = .write chunk :: todo)
    (hfile : x.process.file = some hd) :
    (s.advance k x (x.process.wrote todo hd chunk.length) (s.fs.write hd.inode hd.offset chunk)).Sound := by
  obtain ⟨o, hd', written, rest, later, hfile', rfl, hlater, hout, hw⟩ := (h.stages k x hx halive).writes htodo
  rw [hfile] at hfile'
  cases hfile'
  obtain ⟨tail, htail, hlen⟩ := hw.data
  have hdata : (s.fs.write hd.inode hd.offset chunk).data hd.inode =
      (written ++ [chunk]).flatten ++ tail.drop chunk.length := by
    rw [FS.write, FS.setData_data, Function.update_self, htail, hw.offset, overwrite_append]
    simp
  rw [List.flatten_cons, List.length_append] at hlen
  refine h.advance hx (.writing rfl rfl hlater (show (o, (written ++ [chunk]) ++ rest) ∈ x.outputs by simpa using hout)
    ⟨hw.name, ?_, ⟨_, hdata, ?_⟩, hw.named, hw.only, hw.bound⟩) ?_ fun o' inode hn => ?_
  · simp [hw.offset]
  · rw [List.length_drop]
    omega
  · intro j y hy hj hjk hay hfy
    obtain ⟨hne, hinode⟩ := h.apart j k y x hy hd hj hx hjk hay halive hfy hfile
    refine ⟨⟨Or.inl rfl, ?_, fun _ => id, Nat.le_refl _⟩, fun h' hf => ?_⟩
    · rw [FS.write, FS.setData_data, Function.update_of_ne hinode]
    · cases hf
      exact ⟨hne, hinode⟩
  · have hinode : inode ≠ hd.inode := by
      rintro rfl
      have := hw.only _ hn
      rw [hw.name] at this
      cases this
    rw [FS.write, FS.setData_data, Function.update_of_ne hinode]
    exact h.finals o' inode hn

theorem Sound.renamed [DecidableEq O] {k inode : Nat} {old new : Name O} {todo : List (Op (Name O) B)} (h : s.Sound)
    (hx : s.executions[k]? = some x) (halive : x.alive = true) (htodo : x.process.todo = .rename old new :: todo)
    (hname : s.fs.names old = some inode) :
    (s.advance k x (x.process.renamed todo) (s.fs.move old new)).Sound := by
  obtain ⟨o, hd, written, later, hfile, rfl, rfl, rfl, hlater, hout, hw⟩ := (h.stages k x hx halive).renames htodo
  refine h.advance hx (.between rfl rfl hlater) ?_ fun o' inode' hn => ?_
  · intro j y hy hj hjk hay hfy
    obtain ⟨hne, -⟩ := h.apart j k y x hy hd hj hx hjk hay halive hfy hfile
    obtain ⟨oy, _, _, hwy⟩ := (h.stages j y hj hay).handle hfy
    rw [hw.name] at hne
    refine ⟨⟨Or.inl ?_, rfl, fun name hn => ?_, Nat.le_refl _⟩, fun h' hf => by cases hf⟩
    · rw [FS.move_names, Function.update_of_ne (by rw [hwy.name]; simp), Function.update_of_ne hne]
    · rw [FS.move_names, Function.update_apply] at hn
      split at hn
      · exact absurd (hwy.only _ hn).symm hne
      · rw [Function.update_apply] at hn
        split at hn
        · cases hn
        · exact hn
  · rw [FS.move_names, Function.update_apply] at hn
    split at hn
    · -- The file that is published now is the open one, and it is complete.
      rename_i ho
      cases ho
      have hinode : inode' = hd.inode := by
        rcases hw.named with heq | heq <;> rw [hw.name, hn] at heq
        · exact Option.some.inj heq
        · cases heq
      obtain ⟨tail, htail, hlen⟩ := hw.data
      have hnil : tail = [] := List.eq_nil_of_length_eq_zero (Nat.le_zero.mp hlen)
      refine ⟨x.outputs, List.mem_map.mpr ⟨x, List.mem_of_getElem? hx, rfl⟩, written, hout, ?_⟩
      rw [FS.move_data, hinode, htail, hnil, List.append_nil]
    · rw [Function.update_of_ne (by simp)] at hn
      exact h.finals o' inode' hn

/-- Nothing is published yet; temporary files may be left over. -/
theorem sound_init (h : ∀ o, fs.names (.final o) = none) : (⟨fs, []⟩ : Pool O B).Sound := by
  refine ⟨fun o inode hn => ?_, fun k x hx => ?_, fun j k x y hx hy hj => ?_⟩
  · rw [h] at hn
    cases hn
  · cases hx
  · cases hj

/-- The outputs after a step: those before it, and those of an execution that starts. -/
theorem Stepped.outputs [DecidableEq O] (hs : Stepped s a s') {outputs : List (O × List (List B))}
    (h : outputs ∈ s'.executions.map Execution.outputs) :
    outputs ∈ s.executions.map Execution.outputs ∨ a = .start outputs := by
  cases hs with
  | start =>
    rw [start_executions, List.map_append, List.mem_append] at h
    exact h.imp_right fun h => by rw [List.mem_singleton.mp h]
  | advance hx =>
    rw [advance_executions, outputs_set hx] at h
    exact Or.inl h
  | crash hx =>
    rw [crash_executions, outputs_set hx] at h
    exact Or.inl h

theorem Sound.step [DecidableEq O] (h : s.Sound) (hg : s.Exclusive a) (hs : Stepped s a s') : s'.Sound := by
  cases hs with
  | @start outputs =>
    have now : ∀ {j : Nat} {y : Execution O B},
        (s.executions ++ [⟨outputs, .start (publishAll outputs), true⟩])[j]? = some y →
          y = ⟨outputs, .start (publishAll outputs), true⟩ ∨ s.executions[j]? = some y := by
      intro j y hy
      rcases getElem?_append_inv hy with hy | ⟨-, hy⟩
      · exact Or.inr hy
      · exact Or.inl (List.mem_singleton.mp hy)
    refine ⟨fun o inode hn => ?_, fun j y hy halive => ?_, fun i j y z hy hz hi hj hij hay haz hfy hfz => ?_⟩
    · obtain ⟨outs, hmem, hdata⟩ := h.finals o inode hn
      exact ⟨outs, by rw [start_executions, List.map_append]; exact List.mem_append_left _ hmem, hdata⟩
    · rcases now hy with rfl | hy
      · exact .between rfl rfl fun y hy => hy
      · exact h.stages j y hy halive
    · rcases now hi with rfl | hi
      · cases hfy
      · rcases now hj with rfl | hj
        · cases hfz
        · exact h.apart i j y z hy hz hi hj hij hay haz hfy hfz
  | @advance k x p fs hx halive hp =>
    cases hp with
    | created htodo => exact h.created hg hx halive htodo
    | opened htodo hname => exact h.opened hg hx halive htodo hname
    | wrote htodo hfile => exact h.wrote hx halive htodo hfile
    | unopened => exact h.quiet hx rfl rfl (fun _ => Or.inl rfl) rfl rfl
    | renamed htodo hname => exact h.renamed hx halive htodo hname
    | missing => exact h.quiet hx rfl rfl (fun _ => Or.inl rfl) rfl rfl
    | @removed name names htodo =>
      refine h.quiet hx ((h.stages k x hx halive).ended htodo) rfl (fun n => ?_) rfl rfl
      rw [FS.remove_names, Function.update_apply]
      split
      · exact Or.inr rfl
      · exact Or.inl rfl
  | @crash k x hx =>
    have now : ∀ {j : Nat} {y : Execution O B}, (s.executions.set k ⟨x.outputs, x.process, false⟩)[j]? = some y →
        y.alive = true → s.executions[j]? = some y := by
      intro j y hy halive
      rcases getElem?_set_inv hy with ⟨-, rfl⟩ | ⟨-, hy⟩
      · cases halive
      · exact hy
    refine ⟨?_, fun j y hy halive => h.stages j y (now hy halive) halive,
      fun i j y z hy hz hi hj hij hay haz => h.apart i j y z hy hz (now hi hay) (now hj haz) hij hay haz⟩
    rw [crash_executions, outputs_set hx]
    exact h.finals

end Pool

end Publication
