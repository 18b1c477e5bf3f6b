import DistributedLabs.Models.Kv
import DistributedLabs.Porcupine.Search
import Mathlib.Data.List.Permutation
import Mathlib.Data.List.Sort

/-! What `checkSingle` says about a history of operations. Its answer does not depend on how `sort.Sort` orders entries with
    equal times, as long as no operation returns at the time of a call. -/

namespace DistributedLabs.Porcupine

open Elimination Elimination.Event EliminationSearch Linearization

variable {I O S : Type}

/-! ### The key-value model -/

section Kv
open Models

/-- A recorded operation of the key-value clients. -/
def ofKv (v : Models.Operation) : Operation KvInput KvOutput := ⟨v.clientId, v.input, v.call, v.output, v.ret⟩

def toKv (op : Operation KvInput KvOutput) : Models.Operation := ⟨op.clientId, op.input, op.call, op.output, op.ret⟩

/-- `models.KvModel` -/
def kvModel : Model KvInput KvOutput String where
  partition := some fun history => (KvModel.partition (history.map toKv)).map (List.map ofKv)
  partitionEvent := none
  init := KvModel.init
  step := KvModel.step
  equal := none

instance : Inhabited KvInput := ⟨⟨0, "", ""⟩⟩

instance : Inhabited KvOutput := ⟨⟨""⟩⟩

end Kv

theorem respectsEqual_shallow [DecidableEq S] {model : Model I O S} (h : model.equal = none) :
    RespectsEqual (fillDefault model) := by
  intro s t hst l hl
  have heq : s = t := by
    simp only [fillDefault, h, Option.getD_none, shallowEqual, decide_eq_true_eq] at hst
    exact hst
  exact heq ▸ hl

/-! ### The order of the entries -/

/-- What `sort.Sort(byTime(entries))` does to the entries. -/
structure SortsByTime (sort : List (Entry I O) → List (Entry I O)) : Prop where
  perm : ∀ entries, (sort entries).Perm entries
  sorted : ∀ entries, (sort entries).Pairwise fun e e' => e.time ≤ e'.time

/-- One way to sort the entries. -/
def byTime (entries : List (Entry I O)) : List (Entry I O) := entries.insertionSort fun e e' => e.time ≤ e'.time

theorem sortsByTime_byTime : SortsByTime (byTime (I := I) (O := O)) where
  perm entries := List.perm_insertionSort _ entries
  sorted entries := by
    have : Std.Total fun e e' : Entry I O => e.time ≤ e'.time := ⟨fun e e' => le_total e.time e'.time⟩
    have : IsTrans (Entry I O) fun e e' => e.time ≤ e'.time := ⟨fun _ _ _ => le_trans⟩
    exact List.pairwise_insertionSort _ entries

/-! ### The entries of an operation -/

def Operation.callEntry (op : Operation I O) (id : Int) : Entry I O := ⟨.callEntry, .inl op.input, id, op.call, op.clientId⟩

def Operation.returnEntry (op : Operation I O) (id : Int) : Entry I O :=
  ⟨.returnEntry, .inr op.output, id, op.ret, op.clientId⟩

section Entries
variable {ops : List (Operation I O)} {e : Entry I O}

theorem appendEntries_cons (id : Int) (op : Operation I O) (ops : List (Operation I O)) :
    appendEntries id (op :: ops) = op.callEntry id :: op.returnEntry id :: appendEntries (id + 1) ops := rfl

theorem length_appendEntries (id : Int) (ops : List (Operation I O)) : (appendEntries id ops).length = 2 * ops.length := by
  induction ops generalizing id with
  | nil => rfl
  | cons op ops ih =>
    rw [appendEntries_cons, List.length_cons, List.length_cons, ih, List.length_cons]
    omega

theorem mem_appendEntries {k : Nat} (he : e ∈ appendEntries k ops) :
    ∃ (i : Nat) (op : Operation I O), ops[i]? = some op ∧
      (e = op.callEntry (k + i : Nat) ∨ e = op.returnEntry (k + i : Nat)) := by
  induction ops generalizing k with
  | nil => cases he
  | cons op ops ih =>
    rw [appendEntries_cons] at he
    rcases List.mem_cons.mp he with rfl | he
    · exact ⟨0, op, rfl, Or.inl rfl⟩
    · rcases List.mem_cons.mp he with rfl | he
      · exact ⟨0, op, rfl, Or.inr rfl⟩
      · obtain ⟨i, op', hop, heq⟩ := ih (k := k + 1) he
        have hadd : k + 1 + i = k + (i + 1) := by omega
        rw [hadd] at heq
        exact ⟨i + 1, op', hop, heq⟩

/-- The entries of one operation. -/
theorem filter_appendEntries {k i : Nat} (hk : k ≤ i) :
    (appendEntries k ops).filter (fun e => decide (e.id = (i : Int))) =
    ((ops[i - k]?).map fun op => [op.callEntry i, op.returnEntry i]).getD [] := by
  induction ops generalizing k with
  | nil => simp [appendEntries]
  | cons op ops ih =>
    rw [appendEntries_cons]
    by_cases hki : k = i
    · subst hki
      have hrest : (appendEntries ((k : Int) + 1) ops).filter (fun e => decide (e.id = (k : Int))) = [] := by
        refine List.filter_eq_nil_iff.mpr fun e he hid => ?_
        have hid : e.id = (k : Int) := of_decide_eq_true hid
        obtain ⟨i, op', -, rfl | rfl⟩ := mem_appendEntries (k := k + 1) he
        all_goals
          simp only [Operation.callEntry, Operation.returnEntry] at hid
          omega
      rw [List.filter_cons_of_pos (by simp [Operation.callEntry]), List.filter_cons_of_pos (by simp [Operation.returnEntry]),
        hrest, Nat.sub_self]
      rfl
    · have hne : ¬ (k : Int) = i := by omega
      rw [List.filter_cons_of_neg (by simpa [Operation.callEntry] using hne),
        List.filter_cons_of_neg (by simpa [Operation.returnEntry] using hne)]
      have hsucc : i - k = (i - (k + 1)) + 1 := by omega
      rw [hsucc, List.getElem?_cons_succ]
      exact ih (k := k + 1) (by omega)

end Entries

/-! ### The history is well formed -/

section Wellformed
variable [Inhabited I] [Inhabited O] {sort : List (Entry I O) → List (Entry I O)} {ops : List (Operation I O)}

instance : Inhabited (Operation I O) := ⟨⟨0, default, 0, default, 0⟩⟩

/-- The operation with this id. -/
def opAt (ops : List (Operation I O)) (i : Nat) : Operation I O := ops.getD i default

theorem opAt_of_getElem? {i : Nat} {op : Operation I O} (h : ops[i]? = some op) : opAt ops i = op := by
  rw [opAt, List.getD_eq_getElem?_getD, h, Option.getD_some]

theorem map_opAt (ops : List (Operation I O)) : (List.range ops.length).map (opAt ops) = ops := by
  refine List.ext_getElem (by simp) fun i hi hi' => ?_
  rw [List.getElem_map, List.getElem_range, opAt_of_getElem? (List.getElem?_eq_getElem hi')]

theorem mem_makeEntries (hsort : SortsByTime sort) {e : Entry I O} (he : e ∈ makeEntries sort ops) :
    ∃ i < ops.length, e = (opAt ops i).callEntry i ∨ e = (opAt ops i).returnEntry i := by
  have hmem : e ∈ appendEntries (0 : Nat) ops := (hsort.perm _).mem_iff.mp he
  obtain ⟨i, op, hop, heq⟩ := mem_appendEntries hmem
  rw [Nat.zero_add] at heq
  refine ⟨i, (List.getElem?_eq_some_iff.mp hop).1, ?_⟩
  rw [opAt_of_getElem? hop]
  exact heq

/-- The entries of one operation, in the order of the history. -/
theorem filter_makeEntries (hsort : SortsByTime sort) (hcall : ∀ op ∈ ops, op.call < op.ret) {i : Nat}
    (hi : i < ops.length) :
    (makeEntries sort ops).filter (fun e => decide (e.id = (i : Int))) =
      [(opAt ops i).callEntry i, (opAt ops i).returnEntry i] := by
  have hop : ops[i]? = some (opAt ops i) := by
    rw [opAt_of_getElem? (List.getElem?_eq_getElem hi)]
    exact List.getElem?_eq_getElem hi
  have hperm := (hsort.perm (appendEntries 0 ops)).filter fun e => decide (e.id = (i : Int))
  have hall : (appendEntries (0 : Nat) ops).filter (fun e => decide (e.id = (i : Int))) =
      [(opAt ops i).callEntry i, (opAt ops i).returnEntry i] := by
    rw [filter_appendEntries (Nat.zero_le i), Nat.sub_zero, hop]
    rfl
  rw [show (appendEntries 0 ops).filter (fun e => decide (e.id = (i : Int))) = _ from hall] at hperm
  have hsorted : ((makeEntries sort ops).filter fun e => decide (e.id = (i : Int))).Pairwise fun e e' => e.time ≤ e'.time :=
    (hsort.sorted _).filter _
  unfold makeEntries at hsorted ⊢
  -- A list of these two entries is in one of two orders, and the other one is not sorted.
  rcases List.perm_pair.mp hperm with heq | heq
  · exact heq
  · rw [heq] at hsorted
    have hle := List.rel_of_pairwise_cons hsorted (List.mem_singleton_self _)
    exact absurd hle (not_le.mpr (hcall _ (List.mem_of_getElem? hop)))

theorem id_makeEntries (hsort : SortsByTime sort) {e : Entry I O} (he : e ∈ makeEntries sort ops) :
    0 ≤ e.id ∧ e.id < ops.length := by
  obtain ⟨i, hi, rfl | rfl⟩ := mem_makeEntries hsort he
  all_goals
    simp only [Operation.callEntry, Operation.returnEntry]
    omega

theorem wellformed_makeEntries (hsort : SortsByTime sort) (hcall : ∀ op ∈ ops, op.call < op.ret) :
    Wellformed (fun i => (opAt ops i).input) (fun i => (opAt ops i).output) ops.length (makeEntries sort ops) where
  paired i := by
    -- The events of an operation are those of its entries.
    have hevents : (eventsOf (makeEntries sort ops)).filter (fun e => decide (e.op = i)) =
        ((makeEntries sort ops).filter fun e => decide (e.id = (i : Int))).map Entry.event := by
      unfold eventsOf
      rw [List.filter_map]
      refine congrArg _ (List.filter_congr fun e he => ?_)
      have hid := id_makeEntries hsort he
      have hop : e.event.op = e.id.toNat := by
        unfold Entry.event
        cases e.kind <;> rfl
      dsimp only [Function.comp]
      rw [hop]
      exact decide_eq_decide.mpr (by omega)
    rw [hevents]
    by_cases hi : i < ops.length
    · rw [filter_makeEntries hsort hcall hi]
      exact Or.inr rfl
    · refine Or.inl (List.map_eq_nil_iff.mpr (List.filter_eq_nil_iff.mpr fun e he hid => hi ?_))
      have := id_makeEntries hsort he
      rw [decide_eq_true_eq] at hid
      omega
  id _ he := id_makeEntries hsort he
  value e he := by
    obtain ⟨i, -, rfl | rfl⟩ := mem_makeEntries hsort he <;> rfl
  length := by rw [← length_appendEntries 0 ops, makeEntries, (hsort.perm _).length_eq]

end Wellformed

/-! ### Precedence -/

section Precedence
variable [Inhabited I] [Inhabited O] {sort : List (Entry I O) → List (Entry I O)} {ops : List (Operation I O)}

theorem mem_of_lt (hsort : SortsByTime sort) {i : Nat} (hi : i < ops.length) :
    (opAt ops i).callEntry i ∈ makeEntries sort ops ∧ (opAt ops i).returnEntry i ∈ makeEntries sort ops := by
  have hop : ops[i]? = some (opAt ops i) := by
    rw [opAt_of_getElem? (List.getElem?_eq_getElem hi)]
    exact List.getElem?_eq_getElem hi
  have hall : (appendEntries (0 : Nat) ops).filter (fun e => decide (e.id = (i : Int))) =
      [(opAt ops i).callEntry i, (opAt ops i).returnEntry i] := by
    rw [filter_appendEntries (Nat.zero_le i), Nat.sub_zero, hop]
    rfl
  have hmem : ∀ e ∈ [(opAt ops i).callEntry i, (opAt ops i).returnEntry i], e ∈ makeEntries sort ops := by
    intro e he
    refine (hsort.perm _).mem_iff.mpr (List.mem_of_mem_filter (p := fun e => decide (e.id = (i : Int))) ?_)
    exact hall ▸ he
  exact ⟨hmem _ List.mem_cons_self, hmem _ (List.mem_cons_of_mem _ List.mem_cons_self)⟩

omit [Inhabited I] [Inhabited O] in
/-- Entries in a sorted list stand in the order of their times. -/
theorem sublist_of_time_lt {entries : List (Entry I O)} (hsorted : entries.Pairwise fun e e' => e.time ≤ e'.time)
    {e e' : Entry I O} (he : e ∈ entries) (he' : e' ∈ entries) (hlt : e.time < e'.time) : [e, e'].Sublist entries := by
  obtain ⟨front, back, rfl⟩ := List.append_of_mem he
  refine List.Sublist.append (List.nil_sublist front) (List.Sublist.cons_cons _ (List.singleton_sublist.mpr ?_))
  rcases List.mem_append.mp he' with hfront | hback
  · have hle := (List.pairwise_append.mp hsorted).2.2 e' hfront e List.mem_cons_self
    omega
  · rcases List.mem_cons.mp hback with rfl | hback
    · omega
    · exact hback

theorem precedes_of_lt (hsort : SortsByTime sort) {a b : Nat} (ha : a < ops.length) (hb : b < ops.length)
    (hlt : (opAt ops b).ret < (opAt ops a).call) : Precedes (eventsOf (makeEntries sort ops)) b a := by
  have hsub := (sublist_of_time_lt (hsort.sorted _) (mem_of_lt hsort hb).2 (mem_of_lt hsort ha).1 hlt).map Entry.event
  exact hsub

theorem le_of_precedes (hsort : SortsByTime sort) {a b : Nat} (h : Precedes (eventsOf (makeEntries sort ops)) b a) :
    (opAt ops b).ret ≤ (opAt ops a).call := by
  obtain ⟨l, hl, heq⟩ := List.sublist_map_iff.mp h
  obtain ⟨e, l', rfl, hb, heq'⟩ := List.map_eq_cons_iff.mp heq.symm
  obtain ⟨e', l'', rfl, ha, hnil⟩ := List.map_eq_cons_iff.mp heq'
  have hle := List.rel_of_pairwise_cons (List.Pairwise.sublist hl (hsort.sorted _)) (List.mem_cons_self (a := e'))
  obtain ⟨i, -, rfl | rfl⟩ := mem_makeEntries hsort (hl.subset List.mem_cons_self)
  · cases hb
  · obtain ⟨j, -, rfl | rfl⟩ := mem_makeEntries hsort (hl.subset (List.mem_cons_of_mem _ List.mem_cons_self))
    · cases hb
      cases ha
      exact hle
    · cases ha

/-- No operation returns at the time of a call. -/
def NoTies (ops : List (Operation I O)) : Prop := ∀ a ∈ ops, ∀ b ∈ ops, b.ret ≠ a.call

theorem opAt_mem {i : Nat} (hi : i < ops.length) : opAt ops i ∈ ops := by
  rw [opAt_of_getElem? (List.getElem?_eq_getElem hi)]
  exact List.getElem_mem hi

theorem precedes_iff (hsort : SortsByTime sort) (hties : NoTies ops) {a b : Nat} (ha : a < ops.length)
    (hb : b < ops.length) :
    Precedes (eventsOf (makeEntries sort ops)) b a ↔ (opAt ops b).ret < (opAt ops a).call :=
  ⟨fun h => lt_of_le_of_ne (le_of_precedes hsort h) (hties _ (opAt_mem ha) _ (opAt_mem hb)),
    precedes_of_lt hsort ha hb⟩

theorem call_mem_iff (hsort : SortsByTime sort) {i : Nat} :
    .call i ∈ eventsOf (makeEntries sort ops) ↔ i < ops.length := by
  constructor
  · intro h
    obtain ⟨e, he, heq⟩ := List.mem_map.mp h
    obtain ⟨j, hj, rfl | rfl⟩ := mem_makeEntries hsort he
    · cases heq
      exact hj
    · cases heq
  · intro hi
    exact List.mem_map.mpr ⟨_, (mem_of_lt hsort hi).1, rfl⟩

end Precedence

/-! ### Linearizability -/

section Check
variable [Inhabited I] [Inhabited O] {sort : List (Entry I O) → List (Entry I O)} {ops : List (Operation I O)}
  {model : Filled I O S} {l : List Nat}

/-- The history is linearizable for the object that the model describes. -/
def LinearizableFor (model : Filled I O S) (ops : List (Operation I O)) : Prop :=
  Linearizable Operation.call Operation.ret (Legal (fun s op => model.step s op.input op.output) model.init) ops

/-- The object that the ids of the operations act on. -/
abbrev stepAt (model : Filled I O S) (ops : List (Operation I O)) : S → Nat → Bool × S :=
  stepOf (fun i => (opAt ops i).input) (fun i => (opAt ops i).output) model

theorem linearizableFor_iff : LinearizableFor model ops ↔
    Linearizable (fun i => (opAt ops i).call) (fun i => (opAt ops i).ret)
      (Legal (stepAt model ops) model.init) (List.range ops.length) := by
  have hmap : Linearizable (Operation.call ∘ opAt ops) (Operation.ret ∘ opAt ops)
        (fun l => Legal (fun s op => model.step s op.input op.output) model.init (l.map (opAt ops)))
        (List.range ops.length) ↔
      Linearizable Operation.call Operation.ret (Legal (fun s op => model.step s op.input op.output) model.init)
        ((List.range ops.length).map (opAt ops)) := linearizable_map (opAt ops)
  rw [map_opAt] at hmap
  have hlegal : Legal (stepAt model ops) model.init =
      fun l => Legal (fun s op => model.step s op.input op.output) model.init (l.map (opAt ops)) := by
    funext l
    exact propext (legal_map (opAt ops) fun s op => model.step s op.input op.output)
  rw [hlegal]
  exact hmap.symm

/-- An order in which everything can be taken out is a linearization. -/
theorem linearizableFor_of_takes (hsort : SortsByTime sort) (hcall : ∀ op ∈ ops, op.call < op.ret)
    (ht : Takes (eventsOf (makeEntries sort ops)) l []) (hl : Legal (stepAt model ops) model.init l) :
    LinearizableFor model ops := by
  have hw := wellformed_makeEntries hsort hcall
  obtain ⟨hperm, hres⟩ := ht.linearizes hw.paired
    (fun a => List.mem_range.trans (call_mem_iff hsort).symm) List.nodup_range
    fun a ha b hb => precedes_of_lt hsort (List.mem_range.mp ha) (List.mem_range.mp hb)
  exact linearizableFor_iff.mpr ⟨l, hperm, hres, hl⟩

/-- Without ties, the other way too. -/
theorem takes_of_linearizableFor (hsort : SortsByTime sort) (hcall : ∀ op ∈ ops, op.call < op.ret) (hties : NoTies ops)
    (h : LinearizableFor model ops) :
    ∃ l, Takes (eventsOf (makeEntries sort ops)) l [] ∧ Legal (stepAt model ops) model.init l := by
  have hw := wellformed_makeEntries hsort hcall
  refine (linearizable_iff hw.paired (fun a => List.mem_range.trans (call_mem_iff hsort).symm) List.nodup_range
    fun a ha b hb => ?_).mp (linearizableFor_iff.mp h)
  exact precedes_iff hsort hties (List.mem_range.mp ha) (List.mem_range.mp hb)

/-- For every history of operations that return after they are called, and however `sort.Sort` orders entries with
    equal times, `checkSingle` does not panic and returns after a bounded number of rounds. If it says yes the history
    is linearizable, and if it says no and no operation returns at the time of a call the history is not. -/
theorem checkSingle_decides (hsort : SortsByTime sort) (he : RespectsEqual model)
    (hcall : ∀ op ∈ ops, op.call < op.ret) (computePartial : Bool) :
    ∃ ok longest, (∀ rounds, cost (2 * ops.length) < rounds →
        checkSingle model (makeEntries sort ops) computePartial rounds = some (.returned ok longest)) ∧
      (ok = true → LinearizableFor model ops) ∧ (NoTies ops → LinearizableFor model ops → ok = true) := by
  have hw := wellformed_makeEntries hsort hcall
  obtain ⟨ok, longest, hv, hrun⟩ := hw.checkSingle he
  rw [hw.length] at hrun
  refine ⟨ok, longest, hrun, fun hok => ?_, fun hties h => ?_⟩
  · obtain ⟨l, ht, hl⟩ := hv.ok_iff.mp hok
    exact linearizableFor_of_takes hsort hcall ht hl
  · exact hv.ok_iff.mpr (takes_of_linearizableFor hsort hcall hties h)

end Check

/-- A put of `x` and a get that overlaps it and sees something else. -/
def wrongGet : List (Operation Models.KvInput Models.KvOutput) :=
  [⟨0, ⟨1, "x", "a"⟩, 0, ⟨""⟩, 3⟩, ⟨1, ⟨0, "x", ""⟩, 1, ⟨"b"⟩, 2⟩]

theorem checkSingle_decides_wrongGet : ∃ ok longest, (∀ rounds, cost (2 * wrongGet.length) < rounds →
      checkSingle (fillDefault kvModel) (makeEntries byTime wrongGet) false rounds = some (.returned ok longest)) ∧
    (ok = true ↔ LinearizableFor (fillDefault kvModel) wrongGet) := by
  obtain ⟨ok, longest, hrun, hsound, hcomplete⟩ := checkSingle_decides sortsByTime_byTime
    (respectsEqual_shallow (show kvModel.equal = none from rfl)) (show ∀ op ∈ wrongGet, op.call < op.ret by decide) false
  exact ⟨ok, longest, hrun, hsound, hcomplete (by unfold NoTies; decide)⟩

section Longest
variable [Inhabited I] [Inhabited O] {sort : List (Entry I O) → List (Entry I O)} {ops : List (Operation I O)}
  {model : Filled I O S} {l : List Nat}

/-! ### Longest partial linearizations -/

/-- Operations in a legal order in which each comes after all that returned before its call. -/
structure PartialLinearization (model : Filled I O S) (ops : List (Operation I O)) (l : List Nat) : Prop where
  nodup : l.Nodup
  lt : ∀ i ∈ l, i < ops.length
  respects : ∀ front i back, l = front ++ i :: back → ∀ j < ops.length, (opAt ops j).ret < (opAt ops i).call → j ∈ front
  legal : Legal (fun s op => model.step s op.input op.output) model.init (l.map (opAt ops))

theorem partialLinearization_of_takes (hsort : SortsByTime sort) (hcall : ∀ op ∈ ops, op.call < op.ret)
    {rest : List (Elimination.Event Nat)} (ht : Takes (eventsOf (makeEntries sort ops)) l rest)
    (hl : Legal (stepAt model ops) model.init l) : PartialLinearization model ops l := by
  obtain ⟨hnodup, hmem, hordered, -⟩ := (takes_iff (wellformed_makeEntries hsort hcall).paired).mp ht
  have hlt : ∀ i ∈ l, i < ops.length := fun i hi => (call_mem_iff hsort).mp (hmem i hi)
  refine ⟨hnodup, hlt, fun front i back heq j hj hprec => ?_, ?_⟩
  · have hi : i < ops.length := hlt i (by rw [heq]; exact List.mem_append_right _ List.mem_cons_self)
    exact hordered front i back heq j (precedes_of_lt hsort hi hj hprec)
  · exact (legal_map (opAt ops) fun s op => model.step s op.input op.output).mp hl

theorem PartialLinearization.takes (h : PartialLinearization model ops l) (hsort : SortsByTime sort)
    (hcall : ∀ op ∈ ops, op.call < op.ret) (hties : NoTies ops) :
    (∃ rest, Takes (eventsOf (makeEntries sort ops)) l rest) ∧ Legal (stepAt model ops) model.init l := by
  have hw := wellformed_makeEntries hsort hcall
  refine ⟨⟨_, (takes_iff hw.paired).mpr ⟨h.nodup, fun i hi => (call_mem_iff hsort).mpr (h.lt i hi), ?_, rfl⟩⟩, ?_⟩
  · intro front i back heq j hprec
    have hi : i < ops.length := h.lt i (by rw [heq]; exact List.mem_append_right _ List.mem_cons_self)
    have hj : j < ops.length := (call_mem_iff hsort).mp (hw.paired.call_mem hprec.mem.1)
    exact h.respects front i back heq j hj ((precedes_iff hsort hties hi hj).mp hprec)
  · exact (legal_map (opAt ops) fun s op => model.step s op.input op.output).mpr h.legal

/-- No partial linearization is longer than the history. -/
theorem PartialLinearization.length_le (h : PartialLinearization model ops l) : l.length ≤ ops.length := by
  have hsub : l ⊆ List.range ops.length := fun i hi => List.mem_range.mpr (h.lt i hi)
  have hle := (List.subperm_of_subset h.nodup hsub).length_le
  rwa [List.length_range] at hle

/-- What is recorded for an operation: a longest partial linearization with it, or that there is none. -/
def Longest (model : Filled I O S) (ops : List (Operation I O)) (i : Nat) : Option (List Int) → Prop
  | none => ∀ l, PartialLinearization model ops l → i ∉ l
  | some seq => ∃ q : List Nat, seq = q.map Nat.cast ∧ PartialLinearization model ops q ∧ i ∈ q ∧
      ∀ l, PartialLinearization model ops l → i ∈ l → l.length ≤ q.length

theorem Verdict.longest (hsort : SortsByTime sort) (hcall : ∀ op ∈ ops, op.call < op.ret) (hties : NoTies ops)
    {ok : Bool} {longest : List (Option (List Int))}
    (hv : Verdict (fun i => (opAt ops i).input) (fun i => (opAt ops i).output) (makeEntries sort ops) ops.length
      model true ok longest) :
    longest.length = ops.length ∧ ∀ i < ops.length, ∃ record, longest[i]? = some record ∧ Longest model ops i record := by
  have hw := wellformed_makeEntries hsort hcall
  cases hok : ok with
  | true =>
    obtain ⟨q, ht, hq, rfl⟩ := hv.found hok
    have hpartial := partialLinearization_of_takes hsort hcall ht hq
    have hperm := (ht.linearizes hw.paired (fun a => List.mem_range.trans (call_mem_iff hsort).symm) List.nodup_range
      fun a ha b hb => precedes_of_lt hsort (List.mem_range.mp ha) (List.mem_range.mp hb)).1
    refine ⟨List.length_replicate, fun i hi => ⟨_, List.getElem?_replicate_of_lt hi, q, rfl, hpartial, ?_, ?_⟩⟩
    · exact hperm.mem_iff.mpr (List.mem_range.mpr hi)
    · intro l hl _
      rw [hperm.length_eq, List.length_range]
      exact hl.length_le
  | false =>
    obtain ⟨records, rfl, hsound, hexp⟩ := hv.failed hok
    have hall : (eventsOf (makeEntries sort ops)).filter (fun e => e.op ∉ (∅ : Finset Nat)) =
        eventsOf (makeEntries sort ops) := by simp
    unfold Explored at hexp
    rw [hall] at hexp
    have hbound : ∀ l, PartialLinearization model ops l → ∀ i ∈ l, ∃ q, records i = some q ∧ l.length ≤ q.length := by
      intro l hl i hi
      obtain ⟨⟨rest, ht⟩, hlegal⟩ := hl.takes hsort hcall hties
      obtain ⟨q, hq, hlen⟩ := (hexp l rest ht hlegal).2 rfl i (Or.inr hi)
      rw [Finset.card_empty, Nat.zero_add] at hlen
      exact ⟨q, hq, hlen⟩
    refine ⟨by simp [table], fun i hi => ⟨_, getElem?_table hi, ?_⟩⟩
    cases hrec : records i with
    | none =>
      intro l hl hmem
      obtain ⟨q, hq, -⟩ := hbound l hl i hmem
      rw [hrec] at hq
      cases hq
    | some q =>
      obtain ⟨hmem, ⟨rest, ht⟩, hlegal⟩ := hsound i q hrec
      refine ⟨q, rfl, partialLinearization_of_takes hsort hcall ht hlegal, hmem, fun l hl hil => ?_⟩
      obtain ⟨q', hq', hlen⟩ := hbound l hl i hil
      rw [hrec] at hq'
      cases hq'
      exact hlen

/-- With `computePartial`, whatever the answer is: for every operation `longest` holds a longest partial linearization that
    has it, or nil if there is none. -/
theorem checkSingle_longest (hsort : SortsByTime sort) (he : RespectsEqual model)
    (hcall : ∀ op ∈ ops, op.call < op.ret) (hties : NoTies ops) :
    ∃ ok longest, (∀ rounds, cost (2 * ops.length) < rounds →
        checkSingle model (makeEntries sort ops) true rounds = some (.returned ok longest)) ∧
      longest.length = ops.length ∧ ∀ i < ops.length, ∃ record, longest[i]? = some record ∧ Longest model ops i record := by
  have hw := wellformed_makeEntries hsort hcall
  obtain ⟨ok, longest, hv, hrun⟩ := hw.checkSingle he
  rw [hw.length] at hrun
  exact ⟨ok, longest, hrun, hv.longest hsort hcall hties⟩

theorem checkSingle_longest_wrongGet : ∃ ok longest, (∀ rounds, cost (2 * wrongGet.length) < rounds →
      checkSingle (fillDefault kvModel) (makeEntries byTime wrongGet) true rounds = some (.returned ok longest)) ∧
    longest.length = wrongGet.length ∧
      ∀ i < wrongGet.length, ∃ record, longest[i]? = some record ∧ Longest (fillDefault kvModel) wrongGet i record :=
  checkSingle_longest sortsByTime_byTime (respectsEqual_shallow rfl) (by decide) (by unfold NoTies; decide)

end Longest

end DistributedLabs.Porcupine
