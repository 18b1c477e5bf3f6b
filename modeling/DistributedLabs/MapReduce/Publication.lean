import DistributedLabs.Lib.Run
import DistributedLabs.MapReduce.Worker

/-! Workers that publish their output in one directory at once. Several executions of one task share its temporary
    files: each opens them without truncation, and writes at its own offset to the inode it has opened. -/

namespace DistributedLabs.MapReduce

open FileSystem Publication

variable {B : Type}

/-- What the workers of a job have in common, with the bytes that `Encode` writes for a pair and `Fprintf` for a
    record. -/
structure Program (B : Type) where
  nReduce : Nat
  reducef : String → List String → String
  sort : SortByKey
  encode : KeyValue → List B
  format : String × String → List B

/-- An execution of a task, with what `mapf` lists this time or what is read from the intermediate files. -/
inductive Attempt where
  | performMap (index : Nat) (mapRes : List KeyValue)
  | performReduce (index : Nat) (kva : List KeyValue)
  deriving DecidableEq, Repr

/-- What an execution writes to its files; `none` is a panic before the first of them. -/
def Attempt.outputs (p : Program B) : Attempt → Option (List (Output × List (List B)))
  | .performMap index mapRes =>
    (bucketLoop p.nReduce mapRes (List.replicate p.nReduce [])).map (mapOutputs p.encode index)
  | .performReduce index kva => some (reduceOutputs p.format index (reduceLoop p.reducef (p.sort.sort kva) 0))

/-- The files of an execution are those of its task. -/
theorem Attempt.mem_outputs {p : Program B} {t : Attempt} {outputs : List (Output × List (List B))} {o : Output}
    {chunks : List (List B)} (h : t.outputs p = some outputs) (hmem : (o, chunks) ∈ outputs) :
    (∃ i j mapRes kvall kva, t = .performMap i mapRes ∧ o = .inter i j ∧
      bucketLoop p.nReduce mapRes (List.replicate p.nReduce []) = some kvall ∧ kvall[j]? = some kva ∧
      chunks = kva.map p.encode) ∨
    (∃ j kva, t = .performReduce j kva ∧ o = .out j ∧
      chunks = (reduceLoop p.reducef (p.sort.sort kva) 0).map p.format) := by
  cases t with
  | performMap index mapRes =>
    obtain ⟨kvall, hloop, rfl⟩ := Option.map_eq_some_iff.mp h
    obtain ⟨j, kva, hkva, heq⟩ := mem_mapOutputs.mp hmem
    cases heq
    exact Or.inl ⟨index, j, mapRes, kvall, kva, rfl, rfl, hloop, hkva, rfl⟩
  | performReduce index kva =>
    cases h
    cases List.mem_singleton.mp hmem
    exact Or.inr ⟨index, kva, rfl, rfl, rfl⟩

/-- The directory with the executions that work on it, and all attempts so far. -/
structure Workers (B : Type) where
  pool : Pool Output B
  attempts : List Attempt

namespace Workers

inductive Action where
  | start (t : Attempt)
  | step (k : Nat)
  | crash (k : Nat)
  deriving DecidableEq, Repr

/-- An execution starts, performs its next file operation or crashes. -/
def step (p : Program B) (s : Workers B) : Action → Option (Workers B)
  | .start t => (t.outputs p).map fun outputs => ⟨s.pool.start outputs, s.attempts ++ [t]⟩
  | .step k => (s.pool.step (.step k)).map fun pool => ⟨pool, s.attempts⟩
  | .crash k => (s.pool.step (.crash k)).map fun pool => ⟨pool, s.attempts⟩

inductive Stepped (p : Program B) (s : Workers B) : Action → Workers B → Prop where
  | start {t : Attempt} {outputs : List (Output × List (List B))} (ht : t.outputs p = some outputs) :
      Stepped p s (.start t) ⟨s.pool.start outputs, s.attempts ++ [t]⟩
  | step {k : Nat} {pool : Pool Output B} (hp : Pool.Stepped s.pool (.step k) pool) :
      Stepped p s (.step k) ⟨pool, s.attempts⟩
  | crash {k : Nat} {pool : Pool Output B} (hp : Pool.Stepped s.pool (.crash k) pool) :
      Stepped p s (.crash k) ⟨pool, s.attempts⟩

theorem step_inv {p : Program B} {s s' : Workers B} {a : Action} (h : s.step p a = some s') : Stepped p s a s' := by
  cases a with
  | start t =>
    obtain ⟨outputs, ht, rfl⟩ := Option.map_eq_some_iff.mp h
    exact .start ht
  | step k =>
    obtain ⟨pool, hp, rfl⟩ := Option.map_eq_some_iff.mp h
    exact .step (Pool.step_inv hp)
  | crash k =>
    obtain ⟨pool, hp, rfl⟩ := Option.map_eq_some_iff.mp h
    exact .crash (Pool.step_inv hp)

/-- A run from a directory without final files, in which temporary files may be left over. -/
def Reachable (p : Program B) (P : Workers B → Action → Prop) (s : Workers B) : Prop :=
  ∃ fs : FS (Name Output) B, (∀ o, fs.names (.final o) = none) ∧ Run.Steps (step p) P ⟨⟨fs, []⟩, []⟩ s

/-- Before an operation opens a temporary file, no live execution is between opening and renaming it, and if it is
    there it is not longer than what will be written to it. -/
def Exclusive (s : Workers B) : Action → Prop
  | .step k => s.pool.Exclusive (.step k)
  | _ => True

instance (s : Workers B) (a : Action) : Decidable (s.Exclusive a) :=
  match a with
  | .step k => inferInstanceAs (Decidable (s.pool.Exclusive (.step k)))
  | .start _ => inferInstanceAs (Decidable True)
  | .crash _ => inferInstanceAs (Decidable True)

/-- The pool is sound, and its executions are attempts. -/
structure Sound (p : Program B) (s : Workers B) : Prop where
  pool : s.pool.Sound
  attempts : ∀ outputs ∈ s.pool.executions.map Execution.outputs, ∃ t ∈ s.attempts, t.outputs p = some outputs

theorem Sound.step {p : Program B} {s s' : Workers B} {a : Action} (h : s.Sound p) (hg : s.Exclusive a)
    (hs : Stepped p s a s') : s'.Sound p := by
  cases hs with
  | @start t outputs ht =>
    have hp : Pool.Stepped s.pool (.start outputs) (s.pool.start outputs) := .start
    -- A start opens nothing.
    refine ⟨h.pool.step (fun x hx => by cases hx) hp, fun outs houts => ?_⟩
    rcases hp.outputs houts with hmem | heq
    · obtain ⟨t', ht', hout⟩ := h.attempts outs hmem
      exact ⟨t', List.mem_append_left _ ht', hout⟩
    · cases heq
      exact ⟨t, List.mem_append_right _ (List.mem_singleton_self t), ht⟩
  | step hp =>
    refine ⟨h.pool.step hg hp, fun outs houts => h.attempts outs ?_⟩
    exact (hp.outputs houts).resolve_right (by simp)
  | crash hp =>
    refine ⟨h.pool.step (fun x hx => by cases hx) hp, fun outs houts => h.attempts outs ?_⟩
    exact (hp.outputs houts).resolve_right (by simp)

theorem Reachable.sound {p : Program B} {s : Workers B} (h : Reachable p Exclusive s) : s.Sound p := by
  obtain ⟨fs, hfinals, hrun⟩ := h
  refine Run.Steps.keeps (fun s s' a hi ha hs => hi.step ha (step_inv hs)) hrun ?_
  exact ⟨Pool.sound_init hfinals, fun outputs houts => by cases houts⟩

/-- A final file is the output of an attempt. -/
theorem Sound.final {p : Program B} {s : Workers B} (h : s.Sound p) {o : Output} {content : List B}
    (hread : s.pool.fs.read (.final o) = some content) :
    ∃ t ∈ s.attempts, ∃ outputs chunks, t.outputs p = some outputs ∧ (o, chunks) ∈ outputs ∧
      content = chunks.flatten := by
  obtain ⟨inode, hname, rfl⟩ := Option.map_eq_some_iff.mp hread
  obtain ⟨outputs, houts, chunks, hmem, hdata⟩ := h.pool.finals o inode hname
  obtain ⟨t, ht, hout⟩ := h.attempts outputs houts
  exact ⟨t, ht, outputs, chunks, hout, hmem, hdata⟩

end Workers

open Workers

/-- In every run in which temporary files are opened exclusively, each intermediate file is one bucket of one
    execution of its map task, and each output file all records of one execution of its reduce task. -/
theorem atomic_publication {p : Program B} {s : Workers B} (h : Reachable p Exclusive s) :
    (∀ i j content, s.pool.fs.read (.final (.inter i j)) = some content →
      ∃ mapRes kvall kva, .performMap i mapRes ∈ s.attempts ∧
        bucketLoop p.nReduce mapRes (List.replicate p.nReduce []) = some kvall ∧ kvall[j]? = some kva ∧
        content = kva.flatMap p.encode) ∧
    (∀ j content, s.pool.fs.read (.final (.out j)) = some content →
      ∃ kva, .performReduce j kva ∈ s.attempts ∧
        content = (reduceLoop p.reducef (p.sort.sort kva) 0).flatMap p.format) := by
  refine ⟨fun i j content hread => ?_, fun j content hread => ?_⟩
  · obtain ⟨t, ht, outputs, chunks, hout, hmem, rfl⟩ := h.sound.final hread
    rcases Attempt.mem_outputs hout hmem with ⟨_, _, mapRes, kvall, kva, rfl, ho, hloop, hkva, rfl⟩ | ⟨_, _, -, ho, -⟩
    · cases ho
      exact ⟨mapRes, kvall, kva, ht, hloop, hkva, List.flatMap_def.symm⟩
    · cases ho
  · obtain ⟨t, ht, outputs, chunks, hout, hmem, rfl⟩ := h.sound.final hread
    rcases Attempt.mem_outputs hout hmem with ⟨_, _, _, _, _, -, ho, -⟩ | ⟨_, kva, rfl, ho, rfl⟩
    · cases ho
    · cases ho
      exact ⟨kva, ht, List.flatMap_def.symm⟩

/-- Word count with one reduce task. The bytes are those of `encoding/json` for strings that need no escape. -/
def wordCount : Program Char where
  nReduce := 1
  reducef := fun _ values => toString values.length
  sort := mergeSortByKey
  encode kv := ("\x7b\"Key\":\"" ++ kv.key ++ "\",\"Value\":\"" ++ kv.value ++ "\"\x7d\n").toList
  format r := (r.1 ++ " " ++ r.2 ++ "\n").toList

/-- A worker crashes after the first of two pairs. The task is performed again, with its pairs in the other order. -/
def crashedOnce : List Action :=
  [.start (.performMap 0 [⟨"a", "1"⟩, ⟨"b", "1"⟩]), .step 0, .step 0, .crash 0,
    .start (.performMap 0 [⟨"b", "1"⟩, ⟨"a", "1"⟩]), .step 1, .step 1, .step 1, .step 1]

theorem atomic_publication_crashed_once : ∃ s : Workers Char, ∃ mapRes kvall kva,
    .performMap 0 mapRes ∈ s.attempts ∧ bucketLoop 1 mapRes (List.replicate 1 []) = some kvall ∧ kvall[0]? = some kva ∧
    s.pool.fs.read (.final (.inter 0 0)) = some (kva.flatMap wordCount.encode) := by
  obtain ⟨s, hs, h⟩ := Run.exec_any (step wordCount) Exclusive ⟨⟨FS.empty _ _, []⟩, []⟩ crashedOnce
    (fun (s : Workers Char) => (s.pool.fs.read (.final (.inter 0 0))).isSome) (by decide +kernel)
  obtain ⟨content, hread⟩ := Option.isSome_iff_exists.mp h
  obtain ⟨mapRes, kvall, kva, ht, hloop, hkva, rfl⟩ :=
    (atomic_publication ⟨FS.empty _ _, fun _ => rfl, Run.exec_steps hs⟩).1 0 0 content hread
  exact ⟨s, mapRes, kvall, kva, ht, hloop, hkva, hread⟩

/-- Two executions of one map task have opened the temporary file before either writes. The first publishes it, and
    the second goes on to write to what is now the final file. -/
def sharedTempfile : List Action :=
  [.start (.performMap 0 [⟨"a", "1"⟩, ⟨"b", "1"⟩]), .start (.performMap 0 [⟨"b", "1"⟩, ⟨"a", "1"⟩]), .step 0, .step 1,
    .step 0, .step 0, .step 0, .step 1]

theorem published_file_overwritten : ∃ s : Workers Char, Reachable wordCount (fun _ _ => True) s ∧
    s.attempts = [.performMap 0 [⟨"a", "1"⟩, ⟨"b", "1"⟩], .performMap 0 [⟨"b", "1"⟩, ⟨"a", "1"⟩]] ∧
    s.pool.fs.read (.final (.inter 0 0)) = some ([⟨"b", "1"⟩, ⟨"b", "1"⟩].flatMap wordCount.encode) ∧
    ¬ ∃ mapRes kvall kva, .performMap 0 mapRes ∈ s.attempts ∧
      bucketLoop 1 mapRes (List.replicate 1 []) = some kvall ∧ kvall[0]? = some kva ∧
      s.pool.fs.read (.final (.inter 0 0)) = some (kva.flatMap wordCount.encode) := by
  obtain ⟨s, hs, h⟩ := Run.exec_any (step wordCount) (fun _ _ => True) ⟨⟨FS.empty _ _, []⟩, []⟩ sharedTempfile
    (fun (s : Workers Char) => decide (
      s.attempts = [.performMap 0 [⟨"a", "1"⟩, ⟨"b", "1"⟩], .performMap 0 [⟨"b", "1"⟩, ⟨"a", "1"⟩]] ∧
      s.pool.fs.read (.final (.inter 0 0)) = some ([⟨"b", "1"⟩, ⟨"b", "1"⟩].flatMap wordCount.encode)))
    (by decide +kernel)
  obtain ⟨hattempts, hread⟩ := of_decide_eq_true h
  refine ⟨s, ⟨FS.empty _ _, fun _ => rfl, Run.exec_steps hs⟩, hattempts, hread, ?_⟩
  rintro ⟨mapRes, kvall, kva, ht, hloop, hkva, hfile⟩
  rw [hattempts] at ht
  rw [hread] at hfile
  have hboth : ∀ t ∈ [Attempt.performMap 0 [⟨"a", "1"⟩, ⟨"b", "1"⟩], .performMap 0 [⟨"b", "1"⟩, ⟨"a", "1"⟩]],
      ∀ outputs ∈ t.outputs wordCount, ∀ x ∈ outputs,
        x.2.flatten ≠ [⟨"b", "1"⟩, ⟨"b", "1"⟩].flatMap wordCount.encode := by decide +kernel
  refine hboth _ ht (mapOutputs wordCount.encode 0 kvall) ?_ _ (mem_mapOutputs.mpr ⟨0, kva, hkva, rfl⟩) ?_
  · exact Option.map_eq_some_iff.mpr ⟨kvall, hloop, rfl⟩
  · rw [Option.some.inj hfile, List.flatMap_def]

end DistributedLabs.MapReduce
