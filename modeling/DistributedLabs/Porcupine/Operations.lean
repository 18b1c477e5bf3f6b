import DistributedLabs.Porcupine.Histories
import DistributedLabs.Porcupine.Parallel

/-! `CheckOperations`, `CheckOperationsTimeout` and `CheckOperationsVerbose` (`porcupine/porcupine.go`), from the history of a
    test to the result, and what the tests of `kvraft` learn from it about the whole key-value store. -/

namespace DistributedLabs.Porcupine

open Elimination EliminationSearch Linearization

variable {I O S : Type}

/-! ### The functions -/

/-- The entries of the partitions, as `checkOperations` makes them. -/
def operationEntries (sort : List (Entry I O) → List (Entry I O)) (model : Filled I O S)
    (history : List (Operation I O)) : List (List (Entry I O)) :=
  (model.partition history).map (makeEntries sort)

/-- The states of `checkOperations`. `CheckOperationsVerbose` sets `verbose`, and `CheckOperations` has no timeout. -/
def CheckingOperations [DecidableEq S] (sort : List (Entry I O) → List (Entry I O)) (model : Model I O S)
    (history : List (Operation I O)) (verbose : Bool) (timeout : Int) (c : Check I O S) : Prop :=
  Check.Reachable (fillDefault model) (operationEntries sort (fillDefault model) history) verbose timeout c

/-! ### Partitions of operations -/

section Partitions
variable [Inhabited I] [Inhabited O] {sort : List (Entry I O) → List (Entry I O)}

/-- A partition whose operations return after they are called. -/
def partOf (hsort : SortsByTime sort) (ops : List (Operation I O)) (hcall : ∀ op ∈ ops, op.call < op.ret) : Part I O :=
  ⟨makeEntries sort ops, _, _, ops.length, wellformed_makeEntries hsort hcall⟩

/-- The partitions of a history as parts of the check. -/
theorem exists_parts (hsort : SortsByTime sort) (parts : List (List (Operation I O)))
    (hcall : ∀ ops ∈ parts, ∀ op ∈ ops, op.call < op.ret) : ∃ ps : List (Part I O),
    ps.map Part.history = parts.map (makeEntries sort) ∧ ps.length = parts.length ∧
      ∀ (i : Nat) (ops : List (Operation I O)), parts[i]? = some ops → ∃ h, ps[i]? = some (partOf hsort ops h) := by
  refine ⟨parts.attach.map fun x => partOf hsort x.1 (hcall x.1 x.2), ?_, by simp, fun i ops hops => ?_⟩
  · rw [List.map_map]
    exact List.attach_map_val (f := makeEntries sort)
  · obtain ⟨hi, rfl⟩ := List.getElem?_eq_some_iff.mp hops
    refine ⟨hcall _ (List.getElem_mem hi), ?_⟩
    rw [List.getElem?_eq_getElem (by simpa using hi), List.getElem_map, List.getElem_attach]

variable {model : Filled I O S} {ops : List (Operation I O)}

theorem linearizableFor_of_eliminable (hsort : SortsByTime sort) (hcall : ∀ op ∈ ops, op.call < op.ret)
    (h : (partOf hsort ops hcall).Eliminable model) : LinearizableFor model ops := by
  obtain ⟨l, ht, hl⟩ := h
  exact linearizableFor_of_takes hsort hcall ht hl

theorem eliminable_of_linearizableFor (hsort : SortsByTime sort) (hcall : ∀ op ∈ ops, op.call < op.ret)
    (hties : NoTies ops) (h : LinearizableFor model ops) : (partOf hsort ops hcall).Eliminable model :=
  takes_of_linearizableFor hsort hcall hties h

/-- In every interleaving of the goroutines and the timer: `Ok` means that all partitions are linearizable, and `Illegal` that
    one of them is not. -/
theorem Check.Reachable.linearizable {parts : List (List (Operation I O))} {computeInfo : Bool} {timeout : Int}
    {c : Check I O S} (hc : Check.Reachable model (parts.map (makeEntries sort)) computeInfo timeout c)
    (hsort : SortsByTime sort) (he : RespectsEqual model) (hcall : ∀ ops ∈ parts, ∀ op ∈ ops, op.call < op.ret)
    (hties : ∀ ops ∈ parts, NoTies ops) (hphase : c.phase = .returned) :
    match c.result with
    | .ok => ∀ ops ∈ parts, LinearizableFor model ops
    | .illegal => ∃ ops ∈ parts, ¬ LinearizableFor model ops
    | .unknown => 0 < timeout := by
  obtain ⟨ps, hps, hlen, hparts⟩ := exists_parts hsort parts hcall
  rw [← hps] at hc
  have hsound := hc.result_sound he hphase
  cases hres : c.result with
  | ok =>
    rw [hres] at hsound
    intro ops hops
    obtain ⟨i, hi⟩ := List.getElem?_of_mem hops
    obtain ⟨h, hpart⟩ := hparts i ops hi
    exact linearizableFor_of_eliminable hsort h (hsound _ (List.mem_of_getElem? hpart))
  | illegal =>
    rw [hres] at hsound
    obtain ⟨p, hp, hno⟩ := hsound
    obtain ⟨i, hi, rfl⟩ := List.getElem_of_mem hp
    have hi' : i < parts.length := hlen ▸ hi
    obtain ⟨h, hpart⟩ := hparts i _ (List.getElem?_eq_getElem hi')
    rw [List.getElem?_eq_getElem hi, Option.some.injEq] at hpart
    rw [hpart] at hno
    refine ⟨parts[i], List.getElem_mem hi', fun hlin => hno ?_⟩
    exact eliminable_of_linearizableFor hsort h (hties _ (List.getElem_mem hi')) hlin
  | unknown =>
    rw [hres] at hsound
    exact hsound

end Partitions

/-! ### What the functions return -/

section Results
variable [DecidableEq S] [Inhabited I] [Inhabited O] {sort : List (Entry I O) → List (Entry I O)} {model : Model I O S}
  {history : List (Operation I O)} {verbose : Bool} {timeout : Int} {c : Check I O S}

/-- A history with a partition is checked to the end: until the function has returned some party can take a step, and no
    interleaving is longer than a bound that depends on the history only. -/
theorem checkOperations_returns (hsort : SortsByTime sort) (he : RespectsEqual (fillDefault model))
    (hcall : ∀ ops ∈ (fillDefault model).partition history, ∀ op ∈ ops, op.call < op.ret)
    (hne : (fillDefault model).partition history ≠ []) :
    (∀ verbose timeout c, CheckingOperations sort model history verbose timeout c → c.phase ≠ .returned →
      ∃ a ≠ Action.timeout, ∃ c', c.step (fillDefault model) verbose timeout a = some c') ∧
    ∃ bound, ∀ verbose timeout as c, Run.exec (Check.step (fillDefault model) verbose timeout) (fun _ _ => True)
      (startCheck (fillDefault model) (operationEntries sort (fillDefault model) history)) as = some c →
        as.length ≤ bound := by
  obtain ⟨ps, hps, hlen, -⟩ := exists_parts hsort _ hcall
  have hne' : ps ≠ [] := by
    rintro rfl
    exact hne (List.eq_nil_of_length_eq_zero hlen.symm)
  unfold CheckingOperations operationEntries
  rw [← hps]
  exact ⟨fun verbose timeout c hc hphase => hc.progress he hne' hphase,
    runBound ps, fun verbose timeout as c hexec => run_length_le he hexec⟩

omit [Inhabited I] [Inhabited O] in
/-- A history without a partition is never checked to the end unless there is a timeout: no goroutine is started, so there
    is no result to wait for, and `count` is compared with the number of partitions only after a result. -/
theorem checkOperations_blocks (hnil : (fillDefault model).partition history = [])
    (hc : CheckingOperations sort model history verbose timeout c) :
    (timeout ≤ 0 → c.phase = .loop ∧ ∀ a, c.step (fillDefault model) verbose timeout a = none) ∧
      (c.phase = .returned → c.result = .unknown) := by
  unfold CheckingOperations operationEntries at hc
  rw [hnil, List.map_nil] at hc
  obtain ⟨hgs, hres, hok, hleft⟩ := hc.of_nil
  constructor
  · intro hno
    have hphase : c.phase = .loop := by
      by_contra hp
      exact not_lt.mpr hno (hleft hp).2
    refine ⟨hphase, fun a => ?_⟩
    cases a with
    | goroutine i => simp [Check.step, Check.runGoroutine, hgs]
    | receive => simp [Check.step, Check.receive, hres]
    | timeout => simp [Check.step, hno]
  · intro hp
    have ht := (hleft (by rw [hp]; exact fun h => by cases h)).1
    simp [Check.result, hok, ht]

omit [DecidableEq S] [Inhabited I] [Inhabited O] in
theorem mem_partialLinearizations {i : Nat} {l : List (Option (List Int))} (hl : c.longest[i]? = some (some l)) :
    ∃ seqs, c.partialLinearizations[i]? = some seqs ∧ ∀ seq, seq ∈ seqs ↔ some seq ∈ l := by
  refine ⟨_, by rw [Check.partialLinearizations, List.getElem?_map, hl]; rfl, fun seq => ?_⟩
  rw [List.mem_eraseDups, Option.getD_some]
  simp

/-- What `CheckOperationsVerbose` returns besides the result: for each partition only partial linearizations, and, unless
    the time was up, for every operation of one of them a longest one with this operation. -/
theorem checkOperations_info (hsort : SortsByTime sort) (he : RespectsEqual (fillDefault model))
    (hcall : ∀ ops ∈ (fillDefault model).partition history, ∀ op ∈ ops, op.call < op.ret)
    (hties : ∀ ops ∈ (fillDefault model).partition history, NoTies ops)
    (hc : CheckingOperations sort model history true timeout c) (hphase : c.phase = .returned) {i : Nat}
    {ops : List (Operation I O)} (hops : ((fillDefault model).partition history)[i]? = some ops) :
    ∃ seqs, c.partialLinearizations[i]? = some seqs ∧
      (∀ seq ∈ seqs, ∃ q : List Nat, seq = q.map Nat.cast ∧ PartialLinearization (fillDefault model) ops q) ∧
      (c.timedOut = false → ∀ l, PartialLinearization (fillDefault model) ops l → ∀ j ∈ l,
        ∃ q : List Nat, q.map Nat.cast ∈ seqs ∧ j ∈ q ∧ l.length ≤ q.length) := by
  obtain ⟨ps, hps, -, hparts⟩ := exists_parts hsort _ hcall
  obtain ⟨h, hpart⟩ := hparts i ops hops
  unfold CheckingOperations operationEntries at hc
  rw [← hps] at hc
  obtain ⟨ok, l, hl, ha⟩ := hc.longest_written he hphase hpart
  obtain ⟨seqs, hseqs, hmem⟩ := mem_partialLinearizations hl
  refine ⟨seqs, hseqs, fun seq hseq => ?_, fun hno l' hl' j hj => ?_⟩
  · obtain ⟨q, rfl, ⟨rest, ht⟩, hq⟩ := ha.sound seq ((hmem seq).mp hseq)
    exact ⟨q, rfl, partialLinearization_of_takes hsort h ht hq⟩
  · have hlongest := Verdict.longest hsort h (hties ops (List.mem_of_getElem? hops)) (ha.verdict hno)
    obtain ⟨record, hrecord, hbest⟩ := hlongest.2 j (hl'.lt j hj)
    cases record with
    | none => exact absurd hj (hbest l' hl')
    | some seq =>
      obtain ⟨q, rfl, -, hjq, hmax⟩ := hbest
      exact ⟨q, (hmem _).mpr (List.mem_of_getElem? hrecord), hjq, hmax l' hl' hj⟩

end Results

/-! ### The key-value store -/

section Kv
open Models

variable {sort : List (Entry KvInput KvOutput) → List (Entry KvInput KvOutput)} {history : List Models.Operation}
  {verbose : Bool} {timeout : Int} {c : Check KvInput KvOutput String}

/-- The history of the store with all its keys is linearizable. -/
def StoreLinearizable (history : List Models.Operation) : Prop :=
  Linearizable Models.Operation.call Models.Operation.ret
    (Legal (fun store v => Store.step store v.input v.output) Store.empty) history

theorem partition_kvModel (history : List Models.Operation) :
    (fillDefault kvModel).partition (history.map ofKv) = (KvModel.partition history).map (List.map ofKv) := by
  have hid : (history.map ofKv).map toKv = history := by
    rw [List.map_map]
    exact List.map_id history
  simp only [fillDefault, kvModel, Option.getD_some, hid]

theorem linearizableFor_kvModel (part : List Models.Operation) :
    LinearizableFor (fillDefault kvModel) (part.map ofKv) ↔ Linearizable Models.Operation.call Models.Operation.ret
      (Legal (fun state v => KvModel.step state v.input v.output) KvModel.init) part := by
  have hlegal : (fun l : List Models.Operation => Legal
      (fun s (op : Operation KvInput KvOutput) => (fillDefault kvModel).step s op.input op.output)
        (fillDefault kvModel).init (l.map ofKv)) =
      Legal (fun state v => KvModel.step state v.input v.output) KvModel.init := by
    funext l
    exact propext (legal_map ofKv _).symm
  rw [← hlegal]
  exact (linearizable_map ofKv).symm

/-- The operations of a partition are those of the history. -/
theorem mem_partition_kvModel {ops : List (Operation KvInput KvOutput)}
    (hops : ops ∈ (fillDefault kvModel).partition (history.map ofKv)) {op : Operation KvInput KvOutput} (hop : op ∈ ops) :
    ∃ v ∈ history, op = ofKv v := by
  rw [partition_kvModel] at hops
  obtain ⟨part, hpart, rfl⟩ := List.mem_map.mp hops
  obtain ⟨v, hv, rfl⟩ := List.mem_map.mp hop
  obtain ⟨keys, -, -, hparts⟩ := KvModel.partition_eq history
  rw [hparts] at hpart
  obtain ⟨k, -, rfl⟩ := List.mem_map.mp hpart
  exact ⟨v, List.mem_of_mem_filter hv, rfl⟩

theorem storeLinearizable_iff (hcall : ∀ v ∈ history, v.call < v.ret) : StoreLinearizable history ↔
    ∀ ops ∈ (fillDefault kvModel).partition (history.map ofKv), LinearizableFor (fillDefault kvModel) ops := by
  obtain ⟨keys, hnodup, hmem, hparts⟩ := KvModel.partition_eq history
  unfold StoreLinearizable
  rw [store_step_eq, partition_kvModel, hparts]
  refine (linearizable_family hnodup hmem fun v hv => (hcall v hv).le).trans ?_
  rw [List.map_map, List.forall_mem_map]
  exact forall₂_congr fun k _ => (linearizableFor_kvModel _).symm

/-- What the tests of `kvraft` and `shardkv` learn from the checker about the store with all its keys, for every history
    in which operations return after they are called and never at the time of a call: `Ok` and `Illegal` are right in
    every interleaving and also if the time is up, and `Unknown` is returned only then. -/
theorem kvModel_result (hsort : SortsByTime sort) (hcall : ∀ v ∈ history, v.call < v.ret)
    (hties : ∀ a ∈ history, ∀ b ∈ history, b.ret ≠ a.call)
    (hc : CheckingOperations sort kvModel (history.map ofKv) verbose timeout c) (hphase : c.phase = .returned) :
    match c.result with
    | .ok => StoreLinearizable history
    | .illegal => ¬ StoreLinearizable history
    | .unknown => 0 < timeout := by
  have hcall' : ∀ ops ∈ (fillDefault kvModel).partition (history.map ofKv), ∀ op ∈ ops, op.call < op.ret := by
    intro ops hops op hop
    obtain ⟨v, hv, rfl⟩ := mem_partition_kvModel hops hop
    exact hcall v hv
  have hties' : ∀ ops ∈ (fillDefault kvModel).partition (history.map ofKv), NoTies ops := by
    intro ops hops a ha b hb
    obtain ⟨v, hv, rfl⟩ := mem_partition_kvModel hops ha
    obtain ⟨v', hv', rfl⟩ := mem_partition_kvModel hops hb
    exact hties v hv v' hv'
  have hsound := Check.Reachable.linearizable hc hsort (respectsEqual_shallow rfl) hcall' hties' hphase
  have hiff := storeLinearizable_iff hcall
  cases hres : c.result with
  | ok =>
    rw [hres] at hsound
    exact hiff.mpr hsound
  | illegal =>
    rw [hres] at hsound
    obtain ⟨ops, hops, hno⟩ := hsound
    exact fun hlin => hno (hiff.mp hlin ops hops)
  | unknown =>
    rw [hres] at hsound
    exact hsound

/-- A put of `x` and a get that overlaps it and sees it. -/
def putGet : List Models.Operation := [⟨0, ⟨1, "x", "a"⟩, 0, ⟨""⟩, 3⟩, ⟨1, ⟨0, "x", ""⟩, 1, ⟨"a"⟩, 2⟩]

theorem partition_putGet : (fillDefault kvModel).partition (putGet.map ofKv) = [putGet.map ofKv] := by
  rw [partition_kvModel]
  simp [KvModel.partition, putGet, KvModel.add, KvModel.get, Models.Operation.key]

/-- A state at the return of `CheckOperationsVerbose` on this history. -/
theorem returned_putGet : ∃ c, CheckingOperations byTime kvModel (putGet.map ofKv) true 1 c ∧ c.phase = .returned ∧
    c.result = .ok ∧ c.timedOut = false := by
  obtain ⟨c, hexec, hc⟩ := Run.exec_any (Check.step (fillDefault kvModel) true 1) (fun _ _ => True)
    (startCheck (fillDefault kvModel) [makeEntries byTime (putGet.map ofKv)])
    (List.replicate 4 (.goroutine 0) ++ [.receive])
    (fun c => decide (c.phase = .returned ∧ c.result = .ok ∧ c.timedOut = false)) (by decide)
  refine ⟨c, ?_, of_decide_eq_true hc⟩
  unfold CheckingOperations operationEntries
  rw [partition_putGet]
  exact Run.exec_steps hexec

theorem kvModel_result_putGet : StoreLinearizable putGet := by
  obtain ⟨c, hc, hphase, hok, -⟩ := returned_putGet
  have h := kvModel_result sortsByTime_byTime (by decide) (by decide) hc hphase
  rw [hok] at h
  exact h

theorem checkOperations_info_putGet : ∃ c : Check KvInput KvOutput String, c.phase = .returned ∧
    ∃ seqs, c.partialLinearizations[0]? = some seqs ∧
      ∀ l, PartialLinearization (fillDefault kvModel) (putGet.map ofKv) l → ∀ j ∈ l,
        ∃ q : List Nat, q.map Nat.cast ∈ seqs ∧ j ∈ q ∧ l.length ≤ q.length := by
  obtain ⟨c, hc, hphase, -, hno⟩ := returned_putGet
  obtain ⟨seqs, hseqs, -, hall⟩ := checkOperations_info sortsByTime_byTime (respectsEqual_shallow rfl)
    (by rw [partition_putGet]; decide) (by rw [partition_putGet]; unfold NoTies; decide) hc hphase
    (show ((fillDefault kvModel).partition (putGet.map ofKv))[0]? = some (putGet.map ofKv) by rw [partition_putGet]; rfl)
  exact ⟨c, hphase, seqs, hseqs, hall hno⟩

theorem checkOperations_returns_putGet :
    ∃ bound, ∀ verbose timeout as c, Run.exec (Check.step (fillDefault kvModel) verbose timeout) (fun _ _ => True)
      (startCheck (fillDefault kvModel) (operationEntries byTime (fillDefault kvModel) (putGet.map ofKv))) as = some c →
        as.length ≤ bound :=
  (checkOperations_returns sortsByTime_byTime (respectsEqual_shallow rfl) (by rw [partition_putGet]; decide)
    (by rw [partition_putGet]; exact List.cons_ne_nil _ _)).2

/-- `CheckOperations(KvModel, history)` blocks for the history without operations. -/
theorem checkOperations_blocks_kvModel :
    (startCheck (fillDefault kvModel) (operationEntries byTime (fillDefault kvModel) [])).phase = .loop ∧
    ∀ a, (startCheck (fillDefault kvModel)
      (operationEntries byTime (fillDefault kvModel) [])).step (fillDefault kvModel) false 0 a = none :=
  (checkOperations_blocks (by simp [fillDefault, kvModel, KvModel.partition])
    (show CheckingOperations byTime kvModel [] false 0 _ from .refl)).1 le_rfl

end Kv

end DistributedLabs.Porcupine
