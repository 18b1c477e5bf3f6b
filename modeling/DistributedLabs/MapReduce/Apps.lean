import DistributedLabs.MapReduce.Punctual

/-! Two plugins, `mrapps/wc.go` and `mrapps/indexer.go`, and what the output files of a job with them say about the words
    of its input files. -/

namespace DistributedLabs.MapReduce

open FileSystem Publication Grouping Cluster

/-! ### Words -/

/-- `strings.FieldsFunc`: the longest parts without a separator. -/
def fieldsFunc (sep : Char → Bool) (s : String) : List String :=
  ((s.toList.splitOnP sep).filter (· ≠ [])).map String.ofList

/-- `sort.Strings`. -/
def sortStrings (values : List String) : List String := values.insertionSort (· ≤ ·)

theorem sortStrings_perm {vs vs' : List String} (h : vs.Perm vs') : sortStrings vs = sortStrings vs' := by
  have hperm : (sortStrings vs).Perm (sortStrings vs') :=
    (List.perm_insertionSort _ vs).trans (h.trans (List.perm_insertionSort _ vs').symm)
  exact hperm.eq_of_pairwise' (List.pairwise_insertionSort _ vs) (List.pairwise_insertionSort _ vs')

section Words
variable (isLetter : Char → Bool) (input : String → Option String)

/-- The words of an input file. -/
def wordsOf (filename : String) : List String :=
  match input filename with
  | none => []
  | some contents => fieldsFunc (fun r => !isLetter r) contents

end Words

/-! ### Word count -/

namespace Wc

def map (isLetter : Char → Bool) (_filename contents : String) : List KeyValue :=
  (fieldsFunc (fun r => !isLetter r) contents).map fun w => ⟨w, "1"⟩

def reduce (_key : String) (values : List String) : String := toString values.length

def app (isLetter : Char → Bool) (sort : SortByKey) (input : String → Option String) : App where
  mapf := map isLetter
  reducef := reduce
  sort := sort
  input := input

theorem reduce_perm (key : String) (vs vs' : List String) (h : vs.Perm vs') : reduce key vs = reduce key vs' := by
  rw [reduce, h.length_eq, reduce]

variable {isLetter : Char → Bool} {input : String → Option String} {files : List String} {r : List (String × String)}

theorem pairsOf_eq (filename : String) :
    pairsOf (map isLetter) input filename = (wordsOf isLetter input filename).map fun w => ⟨w, "1"⟩ := by
  unfold pairsOf wordsOf
  cases input filename with
  | none => rfl
  | some contents => rfl

/-- The pairs of all files, and so the number of values of a word. -/
theorem length_valuesOf (w : String) :
    (valuesOf KeyValue.key KeyValue.value w (files.flatMap (pairsOf (map isLetter) input))).length =
      (files.flatMap (wordsOf isLetter input)).count w := by
  have hpairs : files.flatMap (pairsOf (map isLetter) input) =
      (files.flatMap (wordsOf isLetter input)).map fun w => ⟨w, "1"⟩ := by
    rw [List.map_flatMap]
    exact congrArg files.flatMap (funext pairsOf_eq)
  rw [hpairs, valuesOf, List.length_map, List.filter_map, List.length_map, ← List.countP_eq_length_filter, List.count]
  exact List.countP_congr fun w' _ => by simp

/-- A grouping has one record for each word, with the number of its occurrences. -/
theorem mem_groups (h : Groups KeyValue.key KeyValue.value reduce (files.flatMap (pairsOf (map isLetter) input)) r)
    (w n : String) : (w, n) ∈ r ↔ w ∈ files.flatMap (wordsOf isLetter input) ∧
      n = toString ((files.flatMap (wordsOf isLetter input)).count w) := by
  rw [h.mem, reduce, length_valuesOf]
  refine and_congr_left fun _ => ?_
  simp [pairsOf_eq]

end Wc

/-! ### Indexer -/

namespace Indexer

/-- The words are the keys of a Go map, which is ranged over in any order. -/
def map (isLetter : Char → Bool) (document value : String) : List KeyValue :=
  (fieldsFunc (fun x => !isLetter x) value).dedup.map fun w => ⟨w, document⟩

def reduce (_key : String) (values : List String) : String :=
  toString values.length ++ " " ++ String.intercalate "," (sortStrings values)

def app (isLetter : Char → Bool) (sort : SortByKey) (input : String → Option String) : App where
  mapf := map isLetter
  reducef := reduce
  sort := sort
  input := input

theorem reduce_perm (key : String) (vs vs' : List String) (h : vs.Perm vs') : reduce key vs = reduce key vs' := by
  rw [reduce, h.length_eq, sortStrings_perm h, reduce]

variable {isLetter : Char → Bool} {input : String → Option String} {files : List String} {r : List (String × String)}

theorem pairsOf_eq (filename : String) :
    pairsOf (map isLetter) input filename = (wordsOf isLetter input filename).dedup.map fun w => ⟨w, filename⟩ := by
  unfold pairsOf wordsOf
  cases input filename with
  | none => rfl
  | some contents => rfl

/-- A file lists itself once for each of its words. -/
theorem valuesOf_file (w filename : String) :
    valuesOf KeyValue.key KeyValue.value w (pairsOf (map isLetter) input filename) =
      if w ∈ wordsOf isLetter input filename then [filename] else [] := by
  have hfilter : (wordsOf isLetter input filename).dedup.filter (fun w' => decide (w' = w)) =
      if w ∈ wordsOf isLetter input filename then [w] else [] := by
    rw [List.filter_eq, List.count_dedup]
    split <;> rfl
  rw [pairsOf_eq, valuesOf, List.filter_map, List.map_map]
  refine (congrArg _ hfilter).trans ?_
  split <;> rfl

/-- The values of a word are the files that have it. -/
theorem valuesOf_eq (w : String) :
    valuesOf KeyValue.key KeyValue.value w (files.flatMap (pairsOf (map isLetter) input)) =
      files.filter fun filename => w ∈ wordsOf isLetter input filename := by
  induction files with
  | nil => rfl
  | cons filename files ih =>
    rw [List.flatMap_cons, valuesOf, List.filter_append, List.map_append, ← valuesOf, ← valuesOf, ih, valuesOf_file,
      List.filter_cons]
    by_cases hw : w ∈ wordsOf isLetter input filename
    · simp [hw]
    · simp [hw]

/-- A grouping has one record for each word, with the number and the names of the files that have it. -/
theorem mem_groups (h : Groups KeyValue.key KeyValue.value reduce (files.flatMap (pairsOf (map isLetter) input)) r)
    (w n : String) : (w, n) ∈ r ↔ w ∈ files.flatMap (wordsOf isLetter input) ∧
      n = reduce w (files.filter fun filename => w ∈ wordsOf isLetter input filename) := by
  rw [h.mem, valuesOf_eq]
  refine and_congr_left fun _ => ?_
  simp [pairsOf_eq]

end Indexer

/-! ### Jobs -/

section Jobs
variable {isLetter : Char → Bool} {sort : SortByKey} {input : String → Option String} {files : List String} {nReduce : Nat}
  {s : Cluster}

/-- When a job with `wc` is done in a punctual run, its output files have one line for each word of the input files, with
    the number of its occurrences in all of them. -/
theorem wc_output (hn : 0 < nReduce) (h : Reachable (Wc.app isLetter sort input) files nReduce Punctual s)
    (hdone : s.job.master.done = true) :
    (((List.range nReduce).flatMap (recordsOf s.pool.fs)).map Prod.fst).Nodup ∧
    ∀ w n, (w, n) ∈ (List.range nReduce).flatMap (recordsOf s.pool.fs) ↔
      w ∈ files.flatMap (wordsOf isLetter input) ∧ n = toString ((files.flatMap (wordsOf isLetter input)).count w) := by
  obtain ⟨-, -, -, -, hgroups⟩ := (h.orderly hn Wc.reduce_perm).inv.output hn Wc.reduce_perm hdone
  exact ⟨hgroups.nodup, Wc.mem_groups hgroups⟩

/-- A file of two words. -/
def twoWords (filename : String) : Option String := if filename = "pg" then some "the cat" else none

theorem wc_output_two_words : ∃ s : Cluster, s.job.master.done = true ∧
    ("cat", "1") ∈ (List.range 1).flatMap (recordsOf s.pool.fs) := by
  obtain ⟨s, hs, hdone⟩ := Run.exec_any (step (Wc.app Char.isAlpha insertionSortByKey twoWords)) Punctual
    (init ["pg"] 1 0) (crashedWorker ⟨"the", "1"⟩ ⟨"cat", "1"⟩) (fun s => s.job.master.done) (by decide +kernel)
  refine ⟨s, hdone, ((wc_output (by decide) ⟨0, Run.exec_steps hs⟩ hdone).2 _ _).mpr ?_⟩
  decide +kernel

/-- When a job with the indexer is done in a punctual run, its output files have one line for each word of the input
    files, with the number of the files that have it and their names in order. -/
theorem indexer_output (hn : 0 < nReduce) (h : Reachable (Indexer.app isLetter sort input) files nReduce Punctual s)
    (hdone : s.job.master.done = true) :
    (((List.range nReduce).flatMap (recordsOf s.pool.fs)).map Prod.fst).Nodup ∧
    ∀ w n, (w, n) ∈ (List.range nReduce).flatMap (recordsOf s.pool.fs) ↔
      w ∈ files.flatMap (wordsOf isLetter input) ∧
        n = Indexer.reduce w (files.filter fun filename => w ∈ wordsOf isLetter input filename) := by
  obtain ⟨-, -, -, -, hgroups⟩ := (h.orderly hn Indexer.reduce_perm).inv.output hn Indexer.reduce_perm hdone
  exact ⟨hgroups.nodup, Indexer.mem_groups hgroups⟩

theorem indexer_output_two_words : ∃ s : Cluster, s.job.master.done = true ∧
    ("the", "1 pg") ∈ (List.range 1).flatMap (recordsOf s.pool.fs) := by
  obtain ⟨s, hs, hdone⟩ := Run.exec_any (step (Indexer.app Char.isAlpha insertionSortByKey twoWords)) Punctual
    (init ["pg"] 1 0) (crashedWorker ⟨"cat", "pg"⟩ ⟨"the", "pg"⟩) (fun s => s.job.master.done) (by decide +kernel)
  refine ⟨s, hdone, ((indexer_output (by decide) ⟨0, Run.exec_steps hs⟩ hdone).2 _ _).mpr ?_⟩
  decide +kernel

end Jobs

end DistributedLabs.MapReduce
