import DistributedLabs.MapReduce.Worker

/-! MapReduce in parts computes what the sequential program does: the buckets split the pairs by key, each reduce
    task groups one part, and the sequential program groups the whole. -/

namespace DistributedLabs.MapReduce

open FileSystem Publication Grouping

/-! ### The loops -/

/-- The bucket of a key. -/
def bucket (nReduce : Nat) (key : String) : Nat := ihash key % nReduce

/-- The pairs of one bucket. -/
def inBucket (nReduce j : Nat) (kvs : List KeyValue) : List KeyValue :=
  kvs.filter fun kv => bucket nReduce kv.key = j

/-- The bucketing loop never leaves `kvall`, and appends to each bucket its pairs. -/
theorem bucketLoop_eq {nReduce : Nat} (hn : 0 < nReduce) (kvs : List KeyValue) (kvall : List (List KeyValue))
    (hlen : kvall.length = nReduce) :
    ∃ kvall', bucketLoop nReduce kvs kvall = some kvall' ∧ kvall'.length = nReduce ∧
      ∀ j : Nat, kvall'[j]? = (kvall[j]?).map (· ++ inBucket nReduce j kvs) := by
  induction kvs generalizing kvall with
  | nil => exact ⟨kvall, rfl, hlen, fun j => by simp [inBucket]⟩
  | cons kv kvs ih =>
    have hlt : ihash kv.key % nReduce < kvall.length := by
      rw [hlen]
      exact Nat.mod_lt _ hn
    obtain ⟨kva, hkva⟩ : ∃ kva, kvall[ihash kv.key % nReduce]? = some kva := ⟨_, List.getElem?_eq_getElem hlt⟩
    obtain ⟨kvall', hloop, hlen', hget⟩ := ih (kvall.set (ihash kv.key % nReduce) (kva ++ [kv])) (by simp [hlen])
    refine ⟨kvall', ?_, hlen', fun j => ?_⟩
    · simp only [bucketLoop, hkva, hloop]
    · rw [hget, List.getElem?_set]
      by_cases hj : ihash kv.key % nReduce = j
      · subst hj
        rw [if_pos rfl, if_pos hlt, hkva]
        simp [inBucket, bucket]
      · simp [hj, inBucket, bucket]

/-- The end of a run is where the keys change. -/
theorem groupEnd_eq (kva : List KeyValue) (key : String) (j : Nat) :
    groupEnd kva key j = j + ((kva.drop j).takeWhile fun kv => kv.key = key).length := by
  fun_induction groupEnd kva key j with
  | case1 j h =>
    rw [List.getElem?_eq_none_iff] at h
    simp [List.drop_eq_nil_of_le h]
  | case2 j kv h hkey ih =>
    obtain ⟨hlt, heq⟩ := List.getElem?_eq_some_iff.mp h
    rw [ih, List.drop_eq_getElem_cons hlt, heq, List.takeWhile_cons_of_pos (by simpa using hkey), List.length_cons]
    omega
  | case3 j kv h hkey =>
    obtain ⟨hlt, heq⟩ := List.getElem?_eq_some_iff.mp h
    rw [List.drop_eq_getElem_cons hlt, heq, List.takeWhile_cons_of_neg (by simpa using hkey)]
    rfl

/-- The grouping loop makes one record of each run. -/
theorem reduceLoop_eq (reducef : String → List String → String) (kva : List KeyValue) (i : Nat) :
    reduceLoop reducef kva i = runs KeyValue.key KeyValue.value reducef (kva.drop i) := by
  fun_induction reduceLoop reducef kva i with
  | case1 i h =>
    rw [List.getElem?_eq_none_iff] at h
    rw [List.drop_eq_nil_of_le h, runs]
  | case2 i kv h j values ih =>
    obtain ⟨hlt, heq⟩ := List.getElem?_eq_some_iff.mp h
    have hdrop : kva.drop i = kv :: kva.drop (i + 1) := by rw [List.drop_eq_getElem_cons hlt, heq]
    have hj : j = i + 1 + ((kva.drop (i + 1)).takeWhile fun y => y.key = kv.key).length := groupEnd_eq _ _ _
    have hsplit := List.takeWhile_append_dropWhile (p := fun y : KeyValue => decide (y.key = kv.key)) (l := kva.drop (i + 1))
    rw [ih, hdrop, runs]
    -- The run of the key at `i` ends at `j`, and the rest begins there.
    generalize (kva.drop (i + 1)).takeWhile (fun y => decide (y.key = kv.key)) = run at hj hsplit ⊢
    generalize (kva.drop (i + 1)).dropWhile (fun y => decide (y.key = kv.key)) = rest at hsplit ⊢
    have hvalues : values = kv.value :: run.map KeyValue.value := by
      simp only [values]
      rw [List.extract_eq_take_drop, hdrop, show j - i = run.length + 1 by omega, List.take_succ_cons, ← hsplit,
        List.take_left, List.map_cons]
    have hrest : kva.drop j = rest := by
      rw [hj, ← List.drop_drop, ← hsplit, List.drop_left]
    rw [hvalues, hrest]

theorem decode_json (kvs : List KeyValue) : decode (kvs.map .json) = kvs := by
  induction kvs with
  | nil => rfl
  | cons kv kvs ih => simp only [List.map_cons, decode, ih]

theorem gather_eq {fs : Directory} {index : Nat} {ps : Nat → List KeyValue} {is : List Nat}
    (h : ∀ i ∈ is, fs.read (.final (.inter i index)) = some ((ps i).map .json)) :
    gather fs index is = some (is.flatMap ps) := by
  induction is with
  | nil => rfl
  | cons i is ih =>
    have hi := h i List.mem_cons_self
    have his := ih fun i' hi' => h i' (List.mem_cons_of_mem _ hi')
    simp only [gather, hi, his, decode_json, Option.map_some, List.flatMap_cons]

/-- Chunks of one cell each. -/
theorem flatten_cells {α : Type} (cell : α → Cell) (l : List α) : (l.map fun x => [cell x]).flatten = l.map cell := by
  rw [← List.flatMap_def, ← List.map_eq_flatMap]

/-! ### One task -/

section Task
variable {fs : Directory} {mapf : String → String → List KeyValue} {reducef : String → List String → String}
  {sort : SortByKey} {input : String → Option String} {nReduce : Nat}

/-- The pairs of an input file. -/
def pairsOf (mapf : String → String → List KeyValue) (input : String → Option String) (filename : String) :
    List KeyValue :=
  match input filename with
  | none => []
  | some content => mapf filename content

theorem mapOutputs_nodup {B : Type} (encode : KeyValue → List B) (index : Nat) (kvall : List (List KeyValue)) :
    ((mapOutputs encode index kvall).map Prod.fst).Nodup := by
  have hnames : (mapOutputs encode index kvall).map Prod.fst = (List.range kvall.length).map (Output.inter index) := by
    refine List.ext_getElem (by simp [mapOutputs]) fun j h₁ h₂ => ?_
    simp [mapOutputs]
  rw [hnames]
  exact List.nodup_range.map fun i j h => by simpa using h

variable (mapf) in
/-- A map task that runs alone writes each bucket to its file. -/
theorem performMap_publishes {filename : String} (index : Nat) (hn : 0 < nReduce) (hread : (input filename).isSome)
    (htemps : ∀ o, fs.names (.temp o) = none) :
    ∃ fs', performMap mapf input filename nReduce index fs = some (fs', true) ∧ (∀ o, fs'.names (.temp o) = none) ∧
      (∀ j < nReduce, fs'.read (.final (.inter index j)) =
        some ((inBucket nReduce j (pairsOf mapf input filename)).map .json)) ∧
      ∀ o, (∀ j, o ≠ .inter index j) → fs'.read (.final o) = fs.read (.final o) := by
  obtain ⟨content, hcontent⟩ := Option.isSome_iff_exists.mp hread
  obtain ⟨kvall, hloop, hlen, hget⟩ := bucketLoop_eq hn (mapf filename content) _ (List.length_replicate (a := []))
  obtain ⟨fs', hrun, hpub⟩ := complete_publishAll _ htemps (mapOutputs_nodup (fun kv => [Cell.json kv]) index kvall)
  refine ⟨fs', ?_, hpub.temps, fun j hj => ?_, fun o ho => ?_⟩
  · simp only [performMap, hcontent, hloop, hrun]
  · have hbucket : kvall[j]? = some (inBucket nReduce j (pairsOf mapf input filename)) := by
      simp [hget, hj, pairsOf, hcontent]
    have hfile := hpub.finals _ (mem_mapOutputs.mpr ⟨j, _, hbucket, rfl⟩)
    rwa [flatten_cells] at hfile
  · refine hpub.others o fun hmem => ?_
    obtain ⟨x, hx, rfl⟩ := List.mem_map.mp hmem
    obtain ⟨j, _, -, rfl⟩ := mem_mapOutputs.mp hx
    exact ho j rfl

variable (reducef sort) in
/-- A reduce task that runs alone writes the records of its pairs. -/
theorem performReduce_publishes {splite index : Nat} {kva : List KeyValue}
    (hgather : gather fs index (List.range splite) = some kva) (htemps : ∀ o, fs.names (.temp o) = none) :
    ∃ fs', performReduce reducef sort splite index fs = (fs', true) ∧ (∀ o, fs'.names (.temp o) = none) ∧
      fs'.read (.final (.out index)) =
        some ((runs KeyValue.key KeyValue.value reducef (sort.sort kva)).map fun r => .line r.1 r.2) ∧
      ∀ o, o ≠ .out index → fs'.read (.final o) = fs.read (.final o) := by
  obtain ⟨fs', hrun, hpub⟩ := complete_publishAll
    (reduceOutputs (fun r => [Cell.line r.1 r.2]) index (reduceLoop reducef (sort.sort kva) 0)) htemps
    (by simp [reduceOutputs])
  refine ⟨fs', ?_, hpub.temps, ?_, fun o ho => hpub.others o (by simpa [reduceOutputs] using ho)⟩
  · simp only [performReduce, hgather, hrun]
  · have hfile := hpub.finals _ (List.mem_singleton_self _)
    rwa [reduceLoop_eq, List.drop_zero, flatten_cells] at hfile

/-- The runs of the sorted pairs are a grouping of the pairs. -/
theorem groups_sorted (hreducef : ∀ key vs vs', vs.Perm vs' → reducef key vs = reducef key vs') (kva : List KeyValue) :
    Groups KeyValue.key KeyValue.value reducef kva (runs KeyValue.key KeyValue.value reducef (sort.sort kva)) := by
  have hsorted : (sort.sort kva).Pairwise fun a b => a.key ≤ b.key := (sort.sorted kva).imp fun h => not_lt.mp h
  exact (groups_runs hsorted).perm hreducef (sort.perm kva)

end Task

/-! ### All tasks -/

section Job
variable (mapf : String → String → List KeyValue) (reducef : String → List String → String) (sort : SortByKey)
  (input : String → Option String) (files : List String) (nReduce : Nat)

/-- `performMap` for the files of the given indices, in this order; `none` when one panics or fails. -/
def runMaps : List Nat → Directory → Option Directory
  | [], fs => some fs
  | i :: is, fs =>
    match files[i]? with
    | none => none
    | some filename =>
      match performMap mapf input filename nReduce i fs with
      | some (fs', true) => runMaps is fs'
      | _ => none

/-- `performReduce` for the given indices, in this order; `none` when one fails. -/
def runReduces : List Nat → Directory → Option Directory
  | [], fs => some fs
  | j :: js, fs =>
    match performReduce reducef sort files.length j fs with
    | (fs', true) => runReduces js fs'
    | (_, false) => none

/-- All map tasks, then all reduce tasks. -/
def distributed (maps reduces : List Nat) (fs : Directory) : Option Directory :=
  (runMaps mapf input files nReduce maps fs).bind (runReduces reducef sort files reduces)

end Job

/-- The records of an output file. -/
def records : List Cell → List (String × String)
  | .line key output :: cells => (key, output) :: records cells
  | .json _ :: cells => records cells
  | [] => []

/-- The records of `mr-out-j`. -/
def recordsOf (fs : Directory) (j : Nat) : List (String × String) := ((fs.read (.final (.out j))).map records).getD []

theorem records_lines (rs : List (String × String)) : records (rs.map fun r => .line r.1 r.2) = rs := by
  induction rs with
  | nil => rfl
  | cons r rs ih => simp only [List.map_cons, records, ih]

section Job
variable {fs : Directory} {mapf : String → String → List KeyValue} {reducef : String → List String → String}
  {sort : SortByKey} {input : String → Option String} {files : List String} {nReduce : Nat}

/-- The pairs of the `i`-th input file. -/
def pairsAt (mapf : String → String → List KeyValue) (input : String → Option String) (files : List String) (i : Nat) :
    List KeyValue := ((files[i]?).map (pairsOf mapf input)).getD []

theorem pairsAt_flatMap : (List.range files.length).flatMap (pairsAt mapf input files) =
    files.flatMap (pairsOf mapf input) := by
  induction files with
  | nil => rfl
  | cons filename files ih =>
    rw [List.length_cons, List.range_succ_eq_map, List.flatMap_cons, List.flatMap_map, List.flatMap_cons, ← ih]
    rfl

theorem mapAll_eq (hread : ∀ filename ∈ files, (input filename).isSome) :
    mapAll mapf input files = some (files.flatMap (pairsOf mapf input)) := by
  induction files with
  | nil => rfl
  | cons filename files ih =>
    obtain ⟨content, hcontent⟩ := Option.isSome_iff_exists.mp (hread filename List.mem_cons_self)
    have hrest := ih fun f hf => hread f (List.mem_cons_of_mem _ hf)
    simp only [mapAll, hcontent, hrest, Option.map_some, List.flatMap_cons, pairsOf]

variable (mapf) in
theorem runMaps_publishes {maps : List Nat} (hn : 0 < nReduce) (hread : ∀ filename ∈ files, (input filename).isSome)
    (hmaps : ∀ i ∈ maps, i < files.length) (hnodup : maps.Nodup) (htemps : ∀ o, fs.names (.temp o) = none) :
    ∃ fs', runMaps mapf input files nReduce maps fs = some fs' ∧ (∀ o, fs'.names (.temp o) = none) ∧
      (∀ i ∈ maps, ∀ j < nReduce, fs'.read (.final (.inter i j)) =
        some ((inBucket nReduce j (pairsAt mapf input files i)).map .json)) ∧
      ∀ o, (∀ i ∈ maps, ∀ j, o ≠ .inter i j) → fs'.read (.final o) = fs.read (.final o) := by
  induction maps generalizing fs with
  | nil => exact ⟨fs, rfl, htemps, fun i hi => (by cases hi), fun o _ => rfl⟩
  | cons i is ih =>
    rw [List.nodup_cons] at hnodup
    obtain ⟨filename, hfile⟩ : ∃ filename, files[i]? = some filename :=
      ⟨_, List.getElem?_eq_getElem (hmaps i List.mem_cons_self)⟩
    obtain ⟨fs₁, hrun, htemps₁, hfinals₁, hothers₁⟩ := performMap_publishes mapf i hn
      (hread filename (List.mem_of_getElem? hfile)) htemps
    obtain ⟨fs₂, hruns, htemps₂, hfinals₂, hothers₂⟩ := ih (fun i' hi' => hmaps i' (List.mem_cons_of_mem _ hi'))
      hnodup.2 htemps₁
    refine ⟨fs₂, ?_, htemps₂, fun i' hi' j hj => ?_, fun o ho => ?_⟩
    · simp only [runMaps, hfile, hrun, hruns]
    · rcases List.mem_cons.mp hi' with rfl | hi'
      · -- The later tasks write to files of other indices.
        rw [hothers₂ _ fun k hk j' heq => ?_, hfinals₁ j hj]
        · simp only [pairsAt, hfile, Option.map_some, Option.getD_some]
        · cases heq
          exact hnodup.1 hk
      · exact hfinals₂ i' hi' j hj
    · rw [hothers₂ o fun k hk => ho k (List.mem_cons_of_mem _ hk), hothers₁ o fun j => ho i List.mem_cons_self j]

/-- The part of a bucket over all files. -/
theorem inBucket_flatMap (j : Nat) :
    (List.range files.length).flatMap (fun i => inBucket nReduce j (pairsAt mapf input files i)) =
      inBucket nReduce j (files.flatMap (pairsOf mapf input)) := by
  rw [← pairsAt_flatMap]
  exact (List.filter_flatMap ..).symm

variable (reducef sort) in
theorem runReduces_publishes {reduces : List Nat} (hnodup : reduces.Nodup) (htemps : ∀ o, fs.names (.temp o) = none)
    (hinter : ∀ j ∈ reduces, ∀ i < files.length, fs.read (.final (.inter i j)) =
      some ((inBucket nReduce j (pairsAt mapf input files i)).map .json)) :
    ∃ fs', runReduces reducef sort files reduces fs = some fs' ∧
      (∀ j ∈ reduces, fs'.read (.final (.out j)) = some ((runs KeyValue.key KeyValue.value reducef
        (sort.sort (inBucket nReduce j (files.flatMap (pairsOf mapf input))))).map fun r => .line r.1 r.2)) ∧
      ∀ j, j ∉ reduces → fs'.read (.final (.out j)) = fs.read (.final (.out j)) := by
  induction reduces generalizing fs with
  | nil => exact ⟨fs, rfl, fun j hj => (by cases hj), fun j _ => rfl⟩
  | cons j js ih =>
    rw [List.nodup_cons] at hnodup
    have hgather := gather_eq fun i hi => hinter j List.mem_cons_self i (List.mem_range.mp hi)
    rw [inBucket_flatMap] at hgather
    obtain ⟨fs₁, hrun, htemps₁, hfinal₁, hothers₁⟩ := performReduce_publishes reducef sort hgather htemps
    -- The intermediate files are still there for the other tasks.
    have hinter₁ : ∀ j' ∈ js, ∀ i < files.length, fs₁.read (.final (.inter i j')) =
        some ((inBucket nReduce j' (pairsAt mapf input files i)).map .json) := by
      intro j' hj' i hi
      rw [hothers₁ _ (by simp)]
      exact hinter j' (List.mem_cons_of_mem _ hj') i hi
    obtain ⟨fs₂, hruns, hfinals₂, hothers₂⟩ := ih hnodup.2 htemps₁ hinter₁
    refine ⟨fs₂, ?_, fun j' hj' => ?_, fun j' hj' => ?_⟩
    · simp only [runReduces, hrun, hruns]
    · rcases List.mem_cons.mp hj' with rfl | hj'
      · rw [hothers₂ _ hnodup.1, hfinal₁]
      · exact hfinals₂ j' hj'
    · rw [List.mem_cons, not_or] at hj'
      rw [hothers₂ j' hj'.2, hothers₁ _ (by simpa using hj'.1)]

variable (fs mapf reducef sort input files nReduce) in
/-- Whatever the order of the map tasks and that of the reduce tasks, in a directory without temporary files: no
    bucket index leaves `kvall`, all tasks succeed, the records of the output files are those of the sequential
    program, and there is one record for each key, made of all its values. -/
theorem mapreduce_eq_sequential (maps reduces : List Nat) (hn : 0 < nReduce)
    (hreducef : ∀ key vs vs', vs.Perm vs' → reducef key vs = reducef key vs')
    (hread : ∀ filename ∈ files, (input filename).isSome) (hmaps : maps.Perm (List.range files.length))
    (hreduces : reduces.Perm (List.range nReduce)) (htemps : ∀ o, fs.names (.temp o) = none) :
    (∀ kvs, ∃ kvall, bucketLoop nReduce kvs (List.replicate nReduce []) = some kvall) ∧
    ∃ fs' cells, distributed mapf reducef sort input files nReduce maps reduces fs = some fs' ∧
      sequential mapf reducef sort input files = some cells ∧
      (∀ j < nReduce, (fs'.read (.final (.out j))).isSome) ∧
      ((List.range nReduce).flatMap (recordsOf fs')).Perm (records cells) ∧
      Groups KeyValue.key KeyValue.value reducef (files.flatMap (pairsOf mapf input))
        ((List.range nReduce).flatMap (recordsOf fs')) := by
  refine ⟨fun kvs => ?_, ?_⟩
  · obtain ⟨kvall, hloop, -⟩ := bucketLoop_eq hn kvs _ (List.length_replicate (a := []))
    exact ⟨kvall, hloop⟩
  obtain ⟨fs₁, hrun₁, htemps₁, hinter, -⟩ := runMaps_publishes mapf hn hread
    (fun i hi => List.mem_range.mp (hmaps.mem_iff.mp hi)) (hmaps.nodup_iff.mpr List.nodup_range) htemps
  obtain ⟨fs₂, hrun₂, hfinals, -⟩ := runReduces_publishes reducef sort
    (hreduces.nodup_iff.mpr List.nodup_range) htemps₁ fun j hj i hi =>
      hinter i (hmaps.mem_iff.mpr (List.mem_range.mpr hi)) j (List.mem_range.mp (hreduces.mem_iff.mp hj))
  have hout : ∀ j < nReduce, fs₂.read (.final (.out j)) = some ((runs KeyValue.key KeyValue.value reducef
      (sort.sort (inBucket nReduce j (files.flatMap (pairsOf mapf input))))).map fun r => .line r.1 r.2) :=
    fun j hj => hfinals j (hreduces.mem_iff.mpr (List.mem_range.mpr hj))
  -- The output files group the buckets, and so together all pairs.
  have hgroups : Groups KeyValue.key KeyValue.value reducef (files.flatMap (pairsOf mapf input))
      ((List.range nReduce).flatMap (recordsOf fs₂)) := by
    refine Groups.split (bucket nReduce) (fun key => Nat.mod_lt _ hn) fun j hj => ?_
    rw [recordsOf, hout j hj, Option.map_some, Option.getD_some, records_lines]
    exact groups_sorted hreducef _
  have hseq : sequential mapf reducef sort input files = some ((runs KeyValue.key KeyValue.value reducef
      (sort.sort (files.flatMap (pairsOf mapf input)))).map fun r => .line r.1 r.2) := by
    rw [sequential, mapAll_eq hread, Option.map_some, reduceLoop_eq, List.drop_zero]
  refine ⟨fs₂, _, ?_, hseq, fun j hj => ?_, ?_, hgroups⟩
  · simp only [distributed, hrun₁, Option.bind_some, hrun₂]
  · rw [hout j hj]
    rfl
  · rw [records_lines]
    exact hgroups.unique (groups_sorted hreducef _)

end Job

/-- Two files with a common word, counted by two reduce tasks; tasks run from the last to the first. -/
theorem mapreduce_eq_sequential_counts : ∃ fs' cells,
    distributed (fun _ content => [⟨content, "1"⟩, ⟨"the", "1"⟩]) (fun _ values => toString values.length) mergeSortByKey
      (fun filename => some filename) ["cat", "dog"] 2 [1, 0] [1, 0] (FS.empty _ _) = some fs' ∧
    sequential (fun _ content => [⟨content, "1"⟩, ⟨"the", "1"⟩]) (fun _ values => toString values.length) mergeSortByKey
      (fun filename => some filename) ["cat", "dog"] = some cells ∧
    ((List.range 2).flatMap (recordsOf fs')).Perm (records cells) := by
  obtain ⟨-, fs', cells, hd, hs, -, hperm, -⟩ := mapreduce_eq_sequential (FS.empty _ _)
    (fun _ content => [⟨content, "1"⟩, ⟨"the", "1"⟩]) (fun _ values => toString values.length) mergeSortByKey
    (fun filename => some filename) ["cat", "dog"] 2 [1, 0] [1, 0] (by decide) (fun _ _ _ h => by rw [h.length_eq])
    (fun _ _ => rfl) (by decide) (by decide) (fun _ => rfl)
  exact ⟨fs', cells, hd, hs, hperm⟩

end DistributedLabs.MapReduce
