import DistributedLabs.Lib.Grouping
import DistributedLabs.Lib.Publication
import Mathlib.Data.String.Basic

/-! The tasks of a worker (`mr/worker.go`) and the sequential program they are compared with
    (`main/mrsequential.go`). Strings are valid UTF-8. What a task writes is given for any encoding of pairs and
    records. `performMap` and `performReduce` write one cell for each: an intermediate file holds the values that
    `Encode` wrote to it and an output file the lines that `Fprintf` did, so that the decoder reads back what was
    encoded. -/

namespace DistributedLabs.MapReduce

open FileSystem Publication

structure KeyValue where
  key : String
  value : String
  deriving DecidableEq, Repr

/-- `inter_i_j.json` and `mr-out-j`. Their temporary files are `temp_inter_i_j.json` and `temp-mr-out-j`. -/
inductive Output where
  | inter (i j : Nat)
  | out (j : Nat)
  deriving DecidableEq, Repr

/-- What one call of `Encode` or `Fprintf` writes. -/
inductive Cell where
  | json (kv : KeyValue)
  | line (key output : String)
  deriving DecidableEq, Repr

abbrev Directory := FS (Name Output) Cell

/-! ### Map -/

/-- The 32-bit FNV-1a hash of the bytes of the key, without its sign bit. -/
def ihash (key : String) : Nat :=
  let h : UInt32 := key.toUTF8.toList.foldl (fun h b => (h ^^^ b.toUInt32) * 16777619) 2166136261
  (h &&& 0x7fffffff).toNat

/-- The loop that puts each pair into its bucket; `none` is the panic of an index outside `kvall`. -/
def bucketLoop (nReduce : Nat) : List KeyValue → List (List KeyValue) → Option (List (List KeyValue))
  | [], kvall => some kvall
  | kv :: kvs, kvall =>
    match kvall[ihash kv.key % nReduce]? with
    | none => none
    | some kva => bucketLoop nReduce kvs (kvall.set (ihash kv.key % nReduce) (kva ++ [kv]))

/-- What `performMap` writes to its files, one after the other. -/
def mapOutputs {B : Type} (encode : KeyValue → List B) (index : Nat) (kvall : List (List KeyValue)) :
    List (Output × List (List B)) :=
  kvall.mapIdx fun i kva => (.inter index i, kva.map encode)

theorem mem_mapOutputs {B : Type} {encode : KeyValue → List B} {index : Nat} {kvall : List (List KeyValue)}
    {x : Output × List (List B)} :
    x ∈ mapOutputs encode index kvall ↔
      ∃ (j : Nat) (kva : List KeyValue), kvall[j]? = some kva ∧ x = (.inter index j, kva.map encode) := by
  simp only [mapOutputs, List.mem_mapIdx, List.getElem?_eq_some_iff]
  constructor
  · rintro ⟨j, hj, rfl⟩
    exact ⟨j, _, ⟨hj, rfl⟩, rfl⟩
  · rintro ⟨j, _, ⟨hj, rfl⟩, rfl⟩
    exact ⟨j, hj, rfl⟩

/-- `performMap`, run without a break: the directory after it and its result. -/
def performMap (mapf : String → String → List KeyValue) (input : String → Option String) (filename : String)
    (nReduce index : Nat) (fs : Directory) : Option (Directory × Bool) :=
  match input filename with
  | none => some (fs, false)
  | some content =>
    match bucketLoop nReduce (mapf filename content) (List.replicate nReduce []) with
    | none => none
    | some kvall => some ((Process.start (publishAll (mapOutputs (fun kv => [.json kv]) index kvall))).complete fs)

/-! ### Reduce -/

/-- The decoder's loop over a file, which ends at the first value that is no pair. -/
def decode : List Cell → List KeyValue
  | .json kv :: cells => kv :: decode cells
  | _ => []

/-- The loop over the intermediate files of a reduce task; `none` when one cannot be opened. -/
def gather (fs : Directory) (index : Nat) : List Nat → Option (List KeyValue)
  | [] => some []
  | i :: is =>
    match fs.read (.final (.inter i index)) with
    | none => none
    | some cells => (gather fs index is).map (decode cells ++ ·)

/-- `sort.Sort` by key, of which only this is known. -/
structure SortByKey where
  sort : List KeyValue → List KeyValue
  perm : ∀ kva, (sort kva).Perm kva
  sorted : ∀ kva, (sort kva).Pairwise fun a b => ¬ b.key < a.key

/-- Merge sort is one of the sorts that the tasks may use. -/
def mergeSortByKey : SortByKey where
  sort kva := kva.mergeSort fun a b => decide (a.key ≤ b.key)
  perm kva := List.mergeSort_perm kva _
  sorted kva := by
    refine (List.pairwise_mergeSort ?_ ?_ kva).imp fun {a b} h => not_lt.mpr (of_decide_eq_true h)
    · intro a b c hab hbc
      exact decide_eq_true (le_trans (of_decide_eq_true hab) (of_decide_eq_true hbc))
    · intro a b
      simpa using le_total a.key b.key

/-- The loop that looks for the end of the run of a key, from index `j` on. -/
def groupEnd (kva : List KeyValue) (key : String) (j : Nat) : Nat :=
  match h : kva[j]? with
  | none => j
  | some kv => if kv.key = key then groupEnd kva key (j + 1) else j
termination_by kva.length - j
decreasing_by
  have := (List.getElem?_eq_some_iff.mp h).1
  omega

theorem le_groupEnd (kva : List KeyValue) (key : String) (j : Nat) : j ≤ groupEnd kva key j := by
  fun_induction groupEnd kva key j with
  | case1 j => exact Nat.le_refl j
  | case2 j kv h hkey ih => exact Nat.le_of_succ_le ih
  | case3 j => exact Nat.le_refl j

/-- The loop over the sorted pairs, from index `i` on: one record for each run of a key. `mrsequential` has the
    same loop. -/
def reduceLoop (reducef : String → List String → String) (kva : List KeyValue) (i : Nat) : List (String × String) :=
  match h : kva[i]? with
  | none => []
  | some kv =>
    let j := groupEnd kva kv.key (i + 1)
    let values := (kva.extract i j).map KeyValue.value
    (kv.key, reducef kv.key values) :: reduceLoop reducef kva j
termination_by kva.length - i
decreasing_by
  have := (List.getElem?_eq_some_iff.mp h).1
  have := le_groupEnd kva kv.key (i + 1)
  omega

/-- What `performReduce` writes to its file. -/
def reduceOutputs {B : Type} (format : String × String → List B) (index : Nat) (records : List (String × String)) :
    List (Output × List (List B)) :=
  [(.out index, records.map format)]

/-- `performReduce`, run without a break. -/
def performReduce (reducef : String → List String → String) (sort : SortByKey) (splite index : Nat) (fs : Directory) :
    Directory × Bool :=
  match gather fs index (List.range splite) with
  | none => (fs, false)
  | some kva =>
    let records := reduceLoop reducef (sort.sort kva) 0
    (Process.start (publishAll (reduceOutputs (fun r => [.line r.1 r.2]) index records))).complete fs

/-! ### The sequential program -/

/-- The loop over the input files; `none` when one cannot be read. -/
def mapAll (mapf : String → String → List KeyValue) (input : String → Option String) :
    List String → Option (List KeyValue)
  | [] => some []
  | filename :: files =>
    match input filename with
    | none => none
    | some content => (mapAll mapf input files).map (mapf filename content ++ ·)

/-- What `mrsequential` writes to `mr-out-0`. -/
def sequential (mapf : String → String → List KeyValue) (reducef : String → List String → String) (sort : SortByKey)
    (input : String → Option String) (files : List String) : Option (List Cell) :=
  (mapAll mapf input files).map fun intermediate =>
    (reduceLoop reducef (sort.sort intermediate) 0).map fun r => .line r.1 r.2

end DistributedLabs.MapReduce
