import DistributedLabs.Porcupine.Operations

/-! `CheckEvents`, `CheckEventsTimeout` and `CheckEventsVerbose` (`porcupine/porcupine.go`). The events of a history stand for
    operations that are called and return at the positions of their two events, and the entries that `checkEvents` makes of
    the events are those that `checkOperations` makes of these operations. -/

namespace DistributedLabs.Porcupine

open Linearization

variable {I O S : Type}

/-! ### Renumbering -/

/-- The ids in the order in which they come up, after those in `seen`. -/
def idsFrom (seen : List Int) : List (Event I O) → List Int
  | [] => seen
  | v :: events => if v.id ∈ seen then idsFrom seen events else idsFrom (seen ++ [v.id]) events

def idsOf (events : List (Event I O)) : List Int := idsFrom [] events

section Ids
variable {seen : List Int} {events : List (Event I O)}

/-- The ids seen before come first. -/
theorem idsFrom_append (seen : List Int) (events : List (Event I O)) : ∃ new, idsFrom seen events = seen ++ new := by
  induction events generalizing seen with
  | nil => exact ⟨[], (List.append_nil seen).symm⟩
  | cons v events ih =>
    rw [idsFrom]
    split
    · exact ih seen
    · obtain ⟨new, hnew⟩ := ih (seen ++ [v.id])
      exact ⟨v.id :: new, by rw [hnew, List.append_assoc, List.singleton_append]⟩

theorem idsFrom_nodup (h : seen.Nodup) : (idsFrom seen events).Nodup := by
  induction events generalizing seen with
  | nil => exact h
  | cons v events ih =>
    rw [idsFrom]
    split
    · exact ih h
    · rename_i hnew
      refine ih (List.nodup_append.mpr ⟨h, List.pairwise_singleton _ _, fun a ha b hb heq => hnew ?_⟩)
      rw [← List.mem_singleton.mp hb, ← heq]
      exact ha

theorem mem_idsFrom {x : Int} : x ∈ idsFrom seen events ↔ x ∈ seen ∨ ∃ v ∈ events, v.id = x := by
  induction events generalizing seen with
  | nil => simp [idsFrom]
  | cons v events ih =>
    rw [idsFrom]
    split
    · rename_i hv
      rw [ih]
      constructor
      · exact fun h => h.imp_right fun ⟨w, hw, hx⟩ => ⟨w, List.mem_cons_of_mem _ hw, hx⟩
      · rintro (h | ⟨w, hw, rfl⟩)
        · exact Or.inl h
        · rcases List.mem_cons.mp hw with rfl | hw
          · exact Or.inl hv
          · exact Or.inr ⟨w, hw, rfl⟩
    · rw [ih, List.mem_append, List.mem_singleton, or_assoc]
      simp [eq_comm]

/-- The loop of `renumber` numbers the ids in the order in which they come up. -/
theorem renumberFrom_eq {m : Int → Option Int}
    (hm : ∀ x, m x = if x ∈ seen then some (seen.idxOf x : Int) else none) :
    renumberFrom m seen.length events = events.map fun v => { v with id := (idsFrom seen events).idxOf v.id } := by
  induction events generalizing seen m with
  | nil => rfl
  | cons v events ih =>
    rw [renumberFrom, idsFrom, hm, List.map_cons]
    by_cases hv : v.id ∈ seen
    · obtain ⟨new, hnew⟩ := idsFrom_append seen events
      have hfirst : (idsFrom seen events).idxOf v.id = seen.idxOf v.id := by
        rw [hnew, List.idxOf_append_of_mem hv]
      simp only [if_pos hv, ih hm, hfirst]
    · obtain ⟨new, hnew⟩ := idsFrom_append (seen ++ [v.id]) events
      have hfirst : (idsFrom (seen ++ [v.id]) events).idxOf v.id = seen.length := by
        rw [hnew, List.append_assoc, List.idxOf_append_of_notMem hv, List.singleton_append, List.idxOf_cons_self,
          Nat.add_zero]
      have hm' : ∀ x, Function.update m v.id (some (seen.length : Int)) x =
          if x ∈ seen ++ [v.id] then some ((seen ++ [v.id]).idxOf x : Int) else none := by
        intro x
        by_cases hx : x = v.id
        · subst hx
          rw [Function.update_self, if_pos (List.mem_append_right _ (List.mem_singleton_self _)),
            List.idxOf_append_of_notMem hv, List.idxOf_cons_self, Nat.add_zero]
        · rw [Function.update_of_ne hx, hm]
          by_cases hmem : x ∈ seen
          · rw [if_pos hmem, if_pos (List.mem_append_left _ hmem), List.idxOf_append_of_mem hmem]
          · rw [if_neg hmem, if_neg]
            simp [hmem, hx]
      have hrest := ih hm'
      rw [List.length_append, List.length_singleton, Nat.cast_succ] at hrest
      simp only [if_neg hv, hrest, hfirst]

end Ids

/-! ### The entries of the events -/

/-- The entry of an event with its position. -/
def entryOf (events : List (Event I O)) (x : Event I O × Nat) : Entry I O :=
  ⟨if x.1.kind = .returnEvent then .returnEntry else .callEntry, x.1.value, (idsOf events).idxOf x.1.id, x.2, x.1.clientId⟩

/-- The operation of an id, which is called and then returns. -/
def operationOf (events : List (Event I O)) (id : Int) : Option (Operation I O) :=
  match events.zipIdx.filter fun x => decide (x.1.id = id) with
  | [(⟨client, .callEvent, .inl input, _⟩, call), (⟨client', .returnEvent, .inr output, _⟩, ret)] =>
    if client = client' then some ⟨client, input, call, output, ret⟩ else none
  | _ => none

/-- The operations that the events stand for, if every id has a call and a return after it. -/
def operationsOf (events : List (Event I O)) : Option (List (Operation I O)) := (idsOf events).mapM (operationOf events)

section Entries
variable {events : List (Event I O)} {ops : List (Operation I O)}

theorem convertEntries_renumber (events : List (Event I O)) :
    convertEntries (renumber events) = events.zipIdx.map (entryOf events) := by
  have hnumbers : renumberFrom (fun _ => none) ([] : List Int).length events =
      events.map fun v => { v with id := (idsFrom [] events).idxOf v.id } := renumberFrom_eq fun x => by simp
  have hrenumber : renumber events = events.map fun v => { v with id := (idsOf events).idxOf v.id } := hnumbers
  rw [hrenumber, convertEntries, List.zipIdx_map, List.map_map]
  rfl

/-- The times of the entries are their positions. -/
theorem pairwise_time (events : List (Event I O)) :
    (convertEntries (renumber events)).Pairwise fun e e' => e.time < e'.time := by
  rw [convertEntries_renumber, List.pairwise_map]
  have hpositions : (events.zipIdx.map Prod.snd).Pairwise (· < ·) := by
    rw [List.zipIdx_map_snd]
    exact List.pairwise_lt_range'
  exact (List.pairwise_map.mp hpositions).imp fun h => Int.ofNat_lt.mpr h

theorem eq_of_time_eq {entries : List (Entry I O)} (h : entries.Pairwise fun e e' => e.time < e'.time) {e e' : Entry I O}
    (he : e ∈ entries) (he' : e' ∈ entries) (htime : e.time = e'.time) : e = e' := by
  have hnodup : (entries.map Entry.time).Nodup := List.pairwise_map.mpr (h.imp ne_of_lt)
  exact List.inj_on_of_nodup_map hnodup he he' htime

theorem operationOf_spec {id : Int} {op : Operation I O} (h : operationOf events id = some op) :
    ∃ call ret : Nat, op.call = call ∧ op.ret = ret ∧ call < ret ∧
      events.zipIdx.filter (fun x => decide (x.1.id = id)) =
        [(⟨op.clientId, .callEvent, .inl op.input, id⟩, call), (⟨op.clientId, .returnEvent, .inr op.output, id⟩, ret)] := by
  unfold operationOf at h
  split at h
  · rename_i client input id₁ call client' output id₂ ret hfilter
    split at h
    · rename_i hclient
      cases h
      subst hclient
      have hids : ∀ x ∈ events.zipIdx.filter (fun x => decide (x.1.id = id)), x.1.id = id :=
        fun x hx => of_decide_eq_true (List.mem_filter.mp hx).2
      rw [hfilter] at hids
      obtain rfl : id₁ = id := hids _ List.mem_cons_self
      obtain rfl : id₂ = id₁ := hids _ (List.mem_cons_of_mem _ List.mem_cons_self)
      refine ⟨call, ret, rfl, rfl, ?_, hfilter⟩
      -- The positions of the events of one id are in order, too.
      have hpositions : (events.zipIdx.map Prod.snd).Pairwise (· < ·) := by
        rw [List.zipIdx_map_snd]
        exact List.pairwise_lt_range'
      have hpair := (List.pairwise_map.mp hpositions).filter fun x => decide (x.1.id = id₂)
      rw [hfilter] at hpair
      exact List.rel_of_pairwise_cons hpair List.mem_cons_self
    · cases h
  · cases h

theorem forall₂_of_mapM {A B : Type} {f : A → Option B} {as : List A} {bs : List B} (h : as.mapM f = some bs) :
    List.Forall₂ (fun a b => f a = some b) as bs := by
  induction as generalizing bs with
  | nil =>
    cases h
    exact .nil
  | cons a as ih =>
    rw [List.mapM_cons] at h
    obtain ⟨b, hb, h⟩ := Option.bind_eq_some_iff.mp h
    obtain ⟨bs', hbs, h⟩ := Option.bind_eq_some_iff.mp h
    cases h
    exact .cons hb (ih hbs)

/-- The entries of one operation. -/
theorem filter_convertEntries (hops : operationsOf events = some ops) {i : Nat} {op : Operation I O}
    (hi : ops[i]? = some op) :
    (convertEntries (renumber events)).filter (fun e => decide (e.id = (i : Int))) =
        [op.callEntry i, op.returnEntry i] ∧ op.call < op.ret := by
  have hall := forall₂_of_mapM hops
  obtain ⟨hlt, rfl⟩ := List.getElem?_eq_some_iff.mp hi
  have hlt' : i < (idsOf events).length := hall.length_eq ▸ hlt
  have hop : operationOf events (idsOf events)[i] = some ops[i] := hall.get hlt' hlt
  have hnodup : (idsOf events).Nodup := idsFrom_nodup List.nodup_nil
  obtain ⟨call, ret, hcall, hret, horder, hfilter⟩ := operationOf_spec hop
  have hnumber : (idsOf events).idxOf (idsOf events)[i] = i := hnodup.idxOf_getElem i hlt'
  refine ⟨?_, by omega⟩
  rw [convertEntries_renumber, List.filter_map]
  have hsame : events.zipIdx.filter ((fun e : Entry I O => decide (e.id = (i : Int))) ∘ entryOf events) =
      events.zipIdx.filter fun x => decide (x.1.id = (idsOf events)[i]) := by
    refine List.filter_congr fun x hx => decide_eq_decide.mpr ?_
    have hmem : x.1.id ∈ idsOf events := mem_idsFrom.mpr (Or.inr ⟨x.1, List.fst_mem_of_mem_zipIdx hx, rfl⟩)
    dsimp only [entryOf]
    rw [← List.idxOf_inj hmem, hnumber]
    exact Int.ofNat_inj
  rw [hsame, hfilter]
  simp only [List.map_cons, List.map_nil, entryOf, hnumber, Operation.callEntry, Operation.returnEntry, hcall, hret]
  rfl

theorem id_convertEntries (hops : operationsOf events = some ops) {e : Entry I O}
    (he : e ∈ convertEntries (renumber events)) : ∃ i < ops.length, e.id = (i : Int) := by
  rw [convertEntries_renumber] at he
  obtain ⟨x, hx, rfl⟩ := List.mem_map.mp he
  have hmem : x.1.id ∈ idsOf events := mem_idsFrom.mpr (Or.inr ⟨x.1, List.fst_mem_of_mem_zipIdx hx, rfl⟩)
  exact ⟨_, (forall₂_of_mapM hops).length_eq ▸ List.idxOf_lt_length_iff.mpr hmem, rfl⟩

/-- The entries of the events are those of the operations, in some order. -/
theorem perm_convertEntries (hops : operationsOf events = some ops) :
    (appendEntries 0 ops).Perm (convertEntries (renumber events)) := by
  have hnodup : ((List.range ops.length).map (Nat.cast : Nat → Int)).Nodup :=
    List.Nodup.map Nat.cast_injective List.nodup_range
  have hkeys : ∀ e ∈ convertEntries (renumber events), e.id ∈ (List.range ops.length).map (Nat.cast : Nat → Int) := by
    intro e he
    obtain ⟨i, hi, heq⟩ := id_convertEntries hops he
    exact List.mem_map.mpr ⟨i, List.mem_range.mpr hi, heq.symm⟩
  have hkeys' : ∀ e ∈ appendEntries (0 : Nat) ops, e.id ∈ (List.range ops.length).map (Nat.cast : Nat → Int) := by
    intro e he
    obtain ⟨i, op, hop, heq⟩ := mem_appendEntries he
    rw [Nat.zero_add] at heq
    refine List.mem_map.mpr ⟨i, List.mem_range.mpr (List.getElem?_eq_some_iff.mp hop).1, ?_⟩
    rcases heq with rfl | rfl <;> rfl
  have hgroups : (((List.range ops.length).map Nat.cast).flatMap fun k =>
      ofKey Entry.id k (appendEntries (0 : Nat) ops)).Perm (appendEntries (0 : Nat) ops) := flatMap_ofKey hnodup hkeys'
  have hgroups' : (((List.range ops.length).map Nat.cast).flatMap fun k =>
      ofKey Entry.id k (convertEntries (renumber events))).Perm (convertEntries (renumber events)) :=
    flatMap_ofKey hnodup hkeys
  refine hgroups.symm.trans (List.Perm.trans ?_ hgroups')
  refine List.Perm.flatMap_left _ fun k hk => ?_
  obtain ⟨i, hi, rfl⟩ := List.mem_map.mp hk
  have hop := List.getElem?_eq_getElem (List.mem_range.mp hi)
  have hleft : ofKey Entry.id (i : Int) (appendEntries (0 : Nat) ops) = _ := filter_appendEntries (Nat.zero_le i)
  have hright : ofKey Entry.id (i : Int) (convertEntries (renumber events)) = _ := (filter_convertEntries hops hop).1
  rw [hleft, hright, Nat.sub_zero, hop]
  exact .refl _

/-- `checkEvents` makes the entries that `checkOperations` makes of the operations. -/
theorem makeEntries_operationsOf (hops : operationsOf events = some ops) {sort : List (Entry I O) → List (Entry I O)}
    (hsort : SortsByTime sort) : makeEntries sort ops = convertEntries (renumber events) := by
  have htimes := pairwise_time events
  refine List.Perm.eq_of_pairwise (fun e e' he he' hle hle' => ?_) (hsort.sorted _) (htimes.imp fun h => h.le)
    ((hsort.perm _).trans (perm_convertEntries hops))
  have he := ((hsort.perm _).trans (perm_convertEntries hops)).mem_iff.mp he
  exact eq_of_time_eq htimes he he' (le_antisymm hle hle')

theorem call_lt_ret (hops : operationsOf events = some ops) : ∀ op ∈ ops, op.call < op.ret := by
  intro op hop
  obtain ⟨i, hi⟩ := List.getElem?_of_mem hop
  exact (filter_convertEntries hops hi).2

/-- Two events are never at one position. -/
theorem noTies (hops : operationsOf events = some ops) : NoTies ops := by
  intro a ha b hb heq
  obtain ⟨i, hi⟩ := List.getElem?_of_mem ha
  obtain ⟨j, hj⟩ := List.getElem?_of_mem hb
  have hcall : a.callEntry i ∈ convertEntries (renumber events) :=
    List.mem_of_mem_filter ((filter_convertEntries hops hi).1 ▸ List.mem_cons_self)
  have hret : b.returnEntry j ∈ convertEntries (renumber events) :=
    List.mem_of_mem_filter ((filter_convertEntries hops hj).1 ▸ List.mem_cons_of_mem _ List.mem_cons_self)
  have hsame := eq_of_time_eq (pairwise_time events) hret hcall heq
  cases hsame

theorem entries_of_operations {subhistories : List (List (Event I O))} {parts : List (List (Operation I O))}
    (h : List.Forall₂ (fun subhistory ops => operationsOf subhistory = some ops) subhistories parts) :
    subhistories.map (fun subhistory => convertEntries (renumber subhistory)) = parts.map (makeEntries byTime) := by
  induction h with
  | nil => rfl
  | cons hops _ ih => rw [List.map_cons, List.map_cons, ih, makeEntries_operationsOf hops sortsByTime_byTime]

end Entries

/-! ### The functions -/

/-- The entries of the partitions, as `checkEvents` makes them. -/
def eventEntries (model : Filled I O S) (history : List (Event I O)) : List (List (Entry I O)) :=
  (model.partitionEvent history).map fun subhistory => convertEntries (renumber subhistory)

/-- The states of `checkEvents`. `CheckEventsVerbose` sets `verbose`, and `CheckEvents` has no timeout. -/
def CheckingEvents [DecidableEq S] (model : Model I O S) (history : List (Event I O)) (verbose : Bool) (timeout : Int)
    (c : Check I O S) : Prop :=
  Check.Reachable (fillDefault model) (eventEntries (fillDefault model) history) verbose timeout c

section Results
variable [DecidableEq S] [Inhabited I] [Inhabited O] {model : Model I O S} {history : List (Event I O)} {verbose : Bool}
  {timeout : Int} {c : Check I O S}

/-- For every history of events in whose partitions each id has a call and then a return: what `checkEvents` returns in any
    interleaving is right for the operations that are called and return at the positions of their events. There are no
    ties, so nothing else is asked of the history. -/
theorem checkEvents_result (he : RespectsEqual (fillDefault model)) {parts : List (List (Operation I O))}
    (hparts : ((fillDefault model).partitionEvent history).mapM operationsOf = some parts)
    (hc : CheckingEvents model history verbose timeout c) (hphase : c.phase = .returned) :
    match c.result with
    | .ok => ∀ ops ∈ parts, LinearizableFor (fillDefault model) ops
    | .illegal => ∃ ops ∈ parts, ¬ LinearizableFor (fillDefault model) ops
    | .unknown => 0 < timeout := by
  have hall := forall₂_of_mapM hparts
  have hentries : eventEntries (fillDefault model) history = parts.map (makeEntries byTime) := entries_of_operations hall
  have hsub : ∀ ops ∈ parts, ∃ subhistory, operationsOf subhistory = some ops := by
    intro ops hops
    obtain ⟨i, hi, rfl⟩ := List.getElem_of_mem hops
    exact ⟨_, hall.get (hall.length_eq ▸ hi) hi⟩
  unfold CheckingEvents at hc
  rw [hentries] at hc
  refine Check.Reachable.linearizable hc sortsByTime_byTime he (fun ops hops => ?_) (fun ops hops => ?_) hphase
  · obtain ⟨subhistory, h⟩ := hsub ops hops
    exact call_lt_ret h
  · obtain ⟨subhistory, h⟩ := hsub ops hops
    exact noTies h

end Results

section Kv
open Models

/-- A put of client 7 and a get of client 3 that overlaps it and sees it. -/
def putGetEvents : List (Event KvInput KvOutput) :=
  [⟨7, .callEvent, .inl ⟨1, "x", "a"⟩, 40⟩, ⟨3, .callEvent, .inl ⟨0, "x", ""⟩, 12⟩,
    ⟨3, .returnEvent, .inr ⟨"a"⟩, 12⟩, ⟨7, .returnEvent, .inr ⟨""⟩, 40⟩]

theorem checkEvents_result_putGet : LinearizableFor (fillDefault kvModel)
    [⟨7, ⟨1, "x", "a"⟩, 0, ⟨""⟩, 3⟩, ⟨3, ⟨0, "x", ""⟩, 1, ⟨"a"⟩, 2⟩] := by
  obtain ⟨c, hexec, hc⟩ := Run.exec_any (Check.step (fillDefault kvModel) false 0) (fun _ _ => True)
    (startCheck (fillDefault kvModel) (eventEntries (fillDefault kvModel) putGetEvents))
    (List.replicate 4 (.goroutine 0) ++ [.receive])
    (fun c => decide (c.phase = .returned ∧ c.result = .ok)) (by decide)
  obtain ⟨hphase, hok⟩ := of_decide_eq_true hc
  have h := checkEvents_result (respectsEqual_shallow rfl)
    (show ((fillDefault kvModel).partitionEvent putGetEvents).mapM operationsOf = some _ by rfl) (Run.exec_steps hexec) hphase
  rw [hok] at h
  exact h _ List.mem_cons_self

end Kv

end DistributedLabs.Porcupine
