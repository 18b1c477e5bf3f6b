import DistributedLabs.Lib.Linearization
import Mathlib.Data.String.Basic

/-! The key-value model that the tests of `kvraft` hand to the linearizability checker (`models/kv.go`), and the map that
    it stands for. `Call` and `Return` are compared only, so any integers serve as times. -/

namespace DistributedLabs.Models

open Linearization

/-- `op` is 0 for get, 1 for put and 2 for append. -/
structure KvInput where
  op : UInt8
  key : String
  value : String
  deriving DecidableEq, Repr

structure KvOutput where
  value : String
  deriving DecidableEq, Repr

/-- `porcupine.Operation` with these inputs and outputs; `ret` is `Return`. -/
structure Operation where
  clientId : Int
  input : KvInput
  call : Int
  output : KvOutput
  ret : Int
  deriving DecidableEq, Repr

/-- `v.Input.(KvInput).Key` -/
def Operation.key (v : Operation) : String := v.input.key

namespace KvModel

/-! ### The model of the checker -/

/-- `m[k]`, which is empty for a key that is not in the map. -/
def get : List (String × List Operation) → String → List Operation
  | [], _ => []
  | (k', ops) :: m, k => if k' = k then ops else get m k

/-- `m[key] = append(m[key], v)` -/
def add : List (String × List Operation) → Operation → List (String × List Operation)
  | [], v => [(v.key, [v])]
  | (k, ops) :: m, v => if k = v.key then (k, ops ++ [v]) :: m else (k, ops) :: add m v

/-- The history by keys. A Go map lists its keys in any order, but they are sorted afterwards. -/
def partition (history : List Operation) : List (List Operation) :=
  let m := history.foldl add []
  let keys := (m.map Prod.fst).mergeSort fun a b => decide (a ≤ b)
  keys.map (get m)

def init : String := ""

/-- One key's value. -/
def step (state : String) (input : KvInput) (output : KvOutput) : Bool × String :=
  if input.op = 0 then (output.value == state, state)
  else if input.op = 1 then (true, input.value)
  else (true, state ++ input.value)

/-! ### The partition -/

theorem get_add (m : List (String × List Operation)) (v : Operation) (k : String) :
    get (add m v) k = if v.key = k then get m k ++ [v] else get m k := by
  induction m with
  | nil => simp [add, get]
  | cons entry m ih =>
    obtain ⟨k', ops⟩ := entry
    unfold add
    by_cases hkey : k' = v.key
    · rw [if_pos hkey]
      by_cases hk : v.key = k <;> simp [get, hkey, hk]
    · rw [if_neg hkey]
      by_cases hk : k' = k
      · subst hk
        simp [get, Ne.symm hkey]
      · simp only [get, if_neg hk, ih]

/-- The entry of a key holds its operations, in the order of the history. -/
theorem get_foldl (history : List Operation) (m : List (String × List Operation)) (k : String) :
    get (history.foldl add m) k = get m k ++ ofKey Operation.key k history := by
  induction history generalizing m with
  | nil => exact (List.append_nil _).symm
  | cons v history ih =>
    rw [List.foldl_cons, ih, get_add]
    by_cases hk : v.key = k
    · subst hk
      rw [if_pos rfl, ofKey_cons_self, List.append_assoc, List.singleton_append]
    · rw [if_neg hk, ofKey_cons_ne hk]

/-- A key is added to the map if it is new. -/
theorem keys_add (m : List (String × List Operation)) (v : Operation) :
    (v.key ∈ m.map Prod.fst ∧ (add m v).map Prod.fst = m.map Prod.fst) ∨
      (v.key ∉ m.map Prod.fst ∧ (add m v).map Prod.fst = m.map Prod.fst ++ [v.key]) := by
  induction m with
  | nil => exact Or.inr ⟨List.not_mem_nil, rfl⟩
  | cons entry m ih =>
    obtain ⟨k, ops⟩ := entry
    unfold add
    split
    · rename_i hkey
      exact Or.inl ⟨List.mem_cons.mpr (Or.inl hkey.symm), rfl⟩
    · rename_i hne
      rcases ih with ⟨hmem, h⟩ | ⟨hno, h⟩
      · exact Or.inl ⟨List.mem_cons_of_mem _ hmem, by rw [List.map_cons, h, List.map_cons]⟩
      · refine Or.inr ⟨?_, by rw [List.map_cons, h, List.map_cons, List.cons_append]⟩
        rw [List.map_cons, List.mem_cons, not_or]
        exact ⟨fun h => hne h.symm, hno⟩

/-- The keys of the map are those of the history, once each. -/
theorem keys_foldl (history : List Operation) {m : List (String × List Operation)} (hm : (m.map Prod.fst).Nodup) :
    ((history.foldl add m).map Prod.fst).Nodup ∧
      ∀ k, k ∈ (history.foldl add m).map Prod.fst ↔ k ∈ m.map Prod.fst ∨ ∃ v ∈ history, v.key = k := by
  induction history generalizing m with
  | nil => exact ⟨hm, fun k => by simp⟩
  | cons v history ih =>
    have hadd : ((add m v).map Prod.fst).Nodup ∧
        ∀ k, k ∈ (add m v).map Prod.fst ↔ k ∈ m.map Prod.fst ∨ v.key = k := by
      rcases keys_add m v with ⟨hmem, h⟩ | ⟨hno, h⟩ <;> rw [h]
      · exact ⟨hm, fun k => ⟨Or.inl, fun hk => hk.elim id fun hk => hk ▸ hmem⟩⟩
      · refine ⟨List.nodup_append.mpr ⟨hm, List.pairwise_singleton _ _, fun a ha b hb => ?_⟩, fun k => ?_⟩
        · rw [List.mem_singleton.mp hb]
          exact fun heq => hno (heq ▸ ha)
        · rw [List.mem_append, List.mem_singleton, eq_comm (a := k)]
    obtain ⟨hnodup, hmem⟩ := ih hadd.1
    refine ⟨hnodup, fun k => ?_⟩
    rw [List.foldl_cons, hmem k, hadd.2 k, or_assoc]
    simp only [List.mem_cons, exists_eq_or_imp]

/-- One part for each key of the history. -/
theorem partition_eq (history : List Operation) : ∃ keys : List String, keys.Nodup ∧
    (∀ v ∈ history, v.key ∈ keys) ∧
    partition history = keys.map fun k => ofKey Operation.key k history := by
  obtain ⟨hnodup, hmem⟩ := keys_foldl history (m := []) List.nodup_nil
  refine ⟨_, (List.mergeSort_perm _ fun a b => decide (a ≤ b)).nodup_iff.mpr hnodup, fun v hv => ?_, ?_⟩
  · rw [List.mem_mergeSort, hmem]
    exact Or.inr ⟨v, hv, rfl⟩
  · refine List.map_congr_left fun k _ => ?_
    rw [get_foldl]
    rfl

end KvModel

/-! ### The whole map -/

namespace Store

def empty : String → String := fun _ => ""

/-- A store of all keys: an operation reads or writes the value of its own key. -/
def step (store : String → String) (input : KvInput) (output : KvOutput) : Bool × (String → String) :=
  if input.op = 0 then (output.value == store input.key, store)
  else if input.op = 1 then (true, Function.update store input.key input.value)
  else (true, Function.update store input.key (store input.key ++ input.value))

end Store

/-- The store is the family of the values of its keys. -/
theorem store_step_eq : (fun store (v : Operation) => Store.step store v.input v.output) =
    family Operation.key fun state v => KvModel.step state v.input v.output := by
  funext store v
  simp only [Store.step, family, KvModel.step, Operation.key]
  by_cases hget : v.input.op = 0
  · simp only [if_pos hget, Function.update_eq_self]
  · by_cases hput : v.input.op = 1
    · simp only [if_neg hget, if_pos hput]
    · simp only [if_neg hget, if_neg hput]

/-- For every history whose operations return no earlier than they are called: the parts hold each operation exactly
    once, no two of them share one, and the history is linearizable for the whole map if and only if each part is
    linearizable for the model of one key. -/
theorem partition_sound_and_complete {history : List Operation} (hcall : ∀ v ∈ history, v.call ≤ v.ret) :
    (KvModel.partition history).flatten.Perm history ∧ (KvModel.partition history).Pairwise List.Disjoint ∧
    (Linearizable Operation.call Operation.ret
        (Legal (fun store v => Store.step store v.input v.output) Store.empty) history ↔
      ∀ part ∈ KvModel.partition history, Linearizable Operation.call Operation.ret
        (Legal (fun state v => KvModel.step state v.input v.output) KvModel.init) part) := by
  obtain ⟨keys, hnodup, hmem, hparts⟩ := KvModel.partition_eq history
  rw [hparts, store_step_eq]
  refine ⟨flatMap_ofKey hnodup hmem, ?_, (linearizable_family hnodup hmem hcall).trans ?_⟩
  · refine List.pairwise_map.mpr (hnodup.imp fun hne v hv hv' => hne ?_)
    exact (of_decide_eq_true (List.mem_filter.mp hv).2).symm.trans (of_decide_eq_true (List.mem_filter.mp hv').2)
  · exact List.forall_mem_map.symm

/-- A get of `x` that overlaps two puts and sees the first of them, and an append to `y`. -/
def overlapping : List Operation :=
  [⟨0, ⟨1, "x", "a"⟩, 0, ⟨""⟩, 10⟩, ⟨1, ⟨1, "x", "b"⟩, 1, ⟨""⟩, 9⟩, ⟨2, ⟨2, "y", "c"⟩, 2, ⟨""⟩, 3⟩,
    ⟨0, ⟨0, "x", ""⟩, 4, ⟨"a"⟩, 8⟩]

theorem partition_sound_and_complete_overlapping : (KvModel.partition overlapping).flatten.Perm overlapping ∧
    ((∀ part ∈ KvModel.partition overlapping, Linearizable Operation.call Operation.ret
        (Legal (fun state v => KvModel.step state v.input v.output) KvModel.init) part) →
      Linearizable Operation.call Operation.ret
        (Legal (fun store v => Store.step store v.input v.output) Store.empty) overlapping) := by
  have hcall : ∀ v ∈ overlapping, v.call ≤ v.ret := by decide
  obtain ⟨hperm, -, hiff⟩ := partition_sound_and_complete hcall
  exact ⟨hperm, hiff.mpr⟩

end DistributedLabs.Models
