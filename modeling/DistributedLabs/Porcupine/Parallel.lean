import DistributedLabs.Lib.Run
import DistributedLabs.Lib.Table
import DistributedLabs.Porcupine.Search

/-! `checkParallel` (`porcupine/checker.go`): one goroutine searches each partition, and the function itself collects their
    answers until one is no, all are in, or the time is up. The goroutines take their rounds in any order, and the timeout
    may come at any time. -/

namespace DistributedLabs.Porcupine

open Elimination EliminationSearch Linearization Table

variable {I O S : Type}

/-! ### The model -/

/-- Where a goroutine is: in `checkSingle`, between its return and the send, or at its end. -/
inductive Goroutine (I O S : Type) where
  | running (s : Search I O S)
  | returned (ok : Bool) (longest : List (Option (List Int)))
  | finished
  | panicked

/-- Where `checkParallel` is: in its loop, waiting for the other goroutines with `computeInfo`, or at its return. -/
inductive Phase where
  | loop
  | drain
  | returned
  deriving DecidableEq, Repr

/-- The variables of `checkParallel`; `results` is what is in the channel, and an entry of `longest` is nil at first. -/
structure Check (I O S : Type) where
  goroutines : List (Goroutine I O S)
  results : List Bool
  longest : List (Option (List (Option (List Int))))
  kill : Bool
  ok : Bool
  timedOut : Bool
  count : Nat
  phase : Phase

inductive Action where
  | goroutine (i : Nat)
  | receive
  | timeout
  deriving DecidableEq, Repr

inductive CheckResult where
  | unknown
  | ok
  | illegal
  deriving DecidableEq, Repr

/-- All goroutines are started before the loop. -/
def startCheck (model : Filled I O S) (history : List (List (Entry I O))) : Check I O S where
  goroutines := history.map fun subhistory => .running (startSearch model subhistory)
  results := []
  longest := List.replicate history.length none
  kill := false
  ok := true
  timedOut := false
  count := 0
  phase := .loop

namespace Check

/-- `break loop`; with `computeInfo` the function then waits for the goroutines that are left. -/
def leaveLoop (computeInfo : Bool) (c : Check I O S) : Check I O S :=
  { c with phase := if computeInfo && decide (c.count < c.goroutines.length) then .drain else .returned }

/-- A round of `checkSingle`, or the two statements after it. The channel has a place for every goroutine. -/
def runGoroutine (model : Filled I O S) (computeInfo : Bool) (c : Check I O S) (i : Nat) : Option (Check I O S) :=
  match c.goroutines[i]? with
  | some (.running s) =>
    match iterate model computeInfo c.kill s with
    | some (.running s') => some { c with goroutines := c.goroutines.set i (.running s') }
    | some (.returned ok l) => some { c with goroutines := c.goroutines.set i (.returned ok l) }
    | none => some { c with goroutines := c.goroutines.set i .panicked }
  | some (.returned ok l) =>
    if c.results.length < c.goroutines.length then
      some { c with
        goroutines := c.goroutines.set i .finished
        longest := c.longest.set i (some l)
        results := c.results ++ [ok] }
    else none
  | _ => none

/-- `result := <-results` in the loop and `<-results` after it. -/
def receive (computeInfo : Bool) (c : Check I O S) : Option (Check I O S) :=
  match c.phase, c.results with
  | .loop, result :: results =>
    let c := { c with results := results, count := c.count + 1, ok := c.ok && result }
    if !c.ok && !computeInfo then some (leaveLoop computeInfo { c with kill := true })
    else if c.goroutines.length ≤ c.count then some (leaveLoop computeInfo c)
    else some c
  | .drain, _ :: results =>
    let c := { c with results := results, count := c.count + 1 }
    some { c with phase := if c.count < c.goroutines.length then .drain else .returned }
  | _, _ => none

/-- A step of one party; there is no timer if `timeout` is not positive. -/
def step (model : Filled I O S) (computeInfo : Bool) (timeout : Int) (c : Check I O S) : Action → Option (Check I O S)
  | .goroutine i => runGoroutine model computeInfo c i
  | .receive => receive computeInfo c
  | .timeout =>
    if c.phase = .loop ∧ 0 < timeout then some (leaveLoop computeInfo { c with timedOut := true, kill := true })
    else none

def result (c : Check I O S) : CheckResult :=
  if !c.ok then .illegal else if c.timedOut then .unknown else .ok

/-- The linearizations of a partition, each once; a Go map lists them in any order. -/
def partialLinearizations (c : Check I O S) : List (List (List Int)) :=
  c.longest.map fun l => ((l.getD []).filterMap id).eraseDups

/-- The states of `checkParallel` for a history. -/
def Reachable (model : Filled I O S) (history : List (List (Entry I O))) (computeInfo : Bool) (timeout : Int)
    (c : Check I O S) : Prop :=
  Run.Steps (step model computeInfo timeout) (fun _ _ => True) (startCheck model history) c

/-! ### What a step does -/

def isFinished : Goroutine I O S → Bool
  | .finished => true
  | _ => false

theorem eq_finished {g : Goroutine I O S} (h : isFinished g = true) : g = .finished := by
  cases g with
  | finished => rfl
  | running s => cases h
  | returned ok l => cases h
  | panicked => cases h

inductive Stepped (model : Filled I O S) (computeInfo : Bool) (timeout : Int) (c : Check I O S) : Check I O S → Prop where
  | search {i : Nat} {s s' : Search I O S} (hg : c.goroutines[i]? = some (.running s))
      (hit : iterate model computeInfo c.kill s = some (.running s')) :
      Stepped model computeInfo timeout c { c with goroutines := c.goroutines.set i (.running s') }
  | finish {i : Nat} {s : Search I O S} {ok : Bool} {l : List (Option (List Int))}
      (hg : c.goroutines[i]? = some (.running s))
      (hit : iterate model computeInfo c.kill s = some (.returned ok l)) :
      Stepped model computeInfo timeout c { c with goroutines := c.goroutines.set i (.returned ok l) }
  | panic {i : Nat} {s : Search I O S} (hg : c.goroutines[i]? = some (.running s))
      (hit : iterate model computeInfo c.kill s = none) :
      Stepped model computeInfo timeout c { c with goroutines := c.goroutines.set i .panicked }
  | send {i : Nat} {ok : Bool} {l : List (Option (List Int))} (hg : c.goroutines[i]? = some (.returned ok l)) :
      Stepped model computeInfo timeout c
        { c with
          goroutines := c.goroutines.set i .finished
          longest := c.longest.set i (some l)
          results := c.results ++ [ok] }
  | refute {result : Bool} {results : List Bool} (hphase : c.phase = .loop) (hres : c.results = result :: results)
      (hok : (c.ok && result) = false) (hinfo : computeInfo = false) :
      Stepped model computeInfo timeout c
        (leaveLoop computeInfo { c with results := results, count := c.count + 1, ok := c.ok && result, kill := true })
  | last {result : Bool} {results : List Bool} (hphase : c.phase = .loop) (hres : c.results = result :: results)
      (hlast : c.goroutines.length ≤ c.count + 1) :
      Stepped model computeInfo timeout c
        (leaveLoop computeInfo { c with results := results, count := c.count + 1, ok := c.ok && result })
  | more {result : Bool} {results : List Bool} (hphase : c.phase = .loop) (hres : c.results = result :: results)
      (hmore : c.count + 1 < c.goroutines.length) :
      Stepped model computeInfo timeout c { c with results := results, count := c.count + 1, ok := c.ok && result }
  | drain {result : Bool} {results : List Bool} (hphase : c.phase = .drain) (hres : c.results = result :: results) :
      Stepped model computeInfo timeout c
        { c with
          results := results
          count := c.count + 1
          phase := if c.count + 1 < c.goroutines.length then .drain else .returned }
  | timeout (hphase : c.phase = .loop) (htimeout : 0 < timeout) :
      Stepped model computeInfo timeout c (leaveLoop computeInfo { c with timedOut := true, kill := true })

section Steps
variable {model : Filled I O S} {computeInfo : Bool} {timeout : Int} {c c' : Check I O S}

theorem stepped_of_runGoroutine {i : Nat} (h : runGoroutine model computeInfo c i = some c') :
    Stepped model computeInfo timeout c c' := by
  unfold runGoroutine at h
  split at h
  · rename_i s hg
    split at h
    · rename_i s' hit
      cases h
      exact .search hg hit
    · rename_i ok l hit
      cases h
      exact .finish hg hit
    · rename_i hit
      cases h
      exact .panic hg hit
  · rename_i ok l hg
    split at h
    · cases h
      exact .send hg
    · cases h
  · cases h

theorem stepped_of_receive (h : receive computeInfo c = some c') : Stepped model computeInfo timeout c c' := by
  unfold receive at h
  split at h
  · rename_i result results hphase hres
    dsimp only at h
    split at h
    · rename_i hno
      cases h
      rw [Bool.and_eq_true, Bool.not_eq_true', Bool.not_eq_true'] at hno
      exact .refute hphase hres hno.1 hno.2
    · split at h
      · rename_i hlast
        cases h
        exact .last hphase hres hlast
      · rename_i hmore
        cases h
        exact .more hphase hres (not_le.mp hmore)
  · rename_i result results hphase hres
    cases h
    exact .drain hphase hres
  · cases h

theorem stepped {a : Action} (h : step model computeInfo timeout c a = some c') : Stepped model computeInfo timeout c c' := by
  cases a with
  | goroutine i => exact stepped_of_runGoroutine h
  | receive => exact stepped_of_receive h
  | timeout =>
    simp only [step] at h
    split at h
    · rename_i hloop
      cases h
      exact .timeout hloop.1 hloop.2
    · cases h

end Steps

end Check

/-! ### Partitions and their answers -/

/-- The well-formed history of a partition. -/
structure Part (I O : Type) where
  history : List (Entry I O)
  input : Nat → I
  output : Nat → O
  n : Nat
  wellformed : Wellformed input output n history

/-- All operations of the partition can be taken out in a legal order. -/
def Part.Eliminable (p : Part I O) (model : Filled I O S) : Prop :=
  ∃ l, Takes (eventsOf p.history) l [] ∧ Legal (stepOf p.input p.output model) model.init l

/-- The ids of operations that can be taken out one after the other, in a legal order. -/
def Part.IsPartial (p : Part I O) (model : Filled I O S) (seq : List Int) : Prop :=
  ∃ q : List Nat, seq = q.map Nat.cast ∧ (∃ rest, Takes (eventsOf p.history) q rest) ∧
    Legal (stepOf p.input p.output model) model.init q

/-- What a search of the partition may return: sound records, and the right answer unless it was killed. A killed search
    never says yes without a reason. -/
structure Part.Answer (p : Part I O) (model : Filled I O S) (computeInfo kill ok : Bool)
    (l : List (Option (List Int))) : Prop where
  sound : ∀ seq, some seq ∈ l → p.IsPartial model seq
  yes : ok = true → p.Eliminable model
  verdict : kill = false → Verdict p.input p.output p.history p.n model computeInfo ok l

section Answers
variable {model : Filled I O S} {computeInfo kill ok : Bool} {l : List (Option (List Int))} {p : Part I O}
  {s : Search I O S} {rounds : Nat}

theorem isPartial_of_table {records : Nat → Option (List Nat)}
    (hs : Sound p.input p.output p.history model records) {seq : List Int} (h : some seq ∈ table p.n records) :
    p.IsPartial model seq := by
  obtain ⟨i, -, hi⟩ := List.mem_map.mp h
  obtain ⟨q, hq, rfl⟩ := Option.map_eq_some_iff.mp hi
  exact ⟨q, rfl, (hs i q hq).2⟩

theorem answer_of_verdict (hv : Verdict p.input p.output p.history p.n model computeInfo ok l) (kill : Bool) :
    p.Answer model computeInfo kill ok l where
  sound seq hseq := by
    cases hok : ok with
    | false =>
      obtain ⟨records, rfl, hsound, -⟩ := hv.failed hok
      exact isPartial_of_table hsound hseq
    | true =>
      obtain ⟨q, ht, hq, rfl⟩ := hv.found hok
      cases (List.mem_replicate.mp hseq).2
      exact ⟨q, rfl, ⟨[], ht⟩, hq⟩
  yes hok := hv.ok_iff.mp hok
  verdict _ := hv

/-- A round of a search that may be killed. -/
theorem iterate_killable (h : Searching p.input p.output p.history p.n model computeInfo rounds s)
    (he : RespectsEqual model) (kill : Bool) :
    (∃ s' rounds', iterate model computeInfo kill s = some (.running s') ∧ rounds' < rounds ∧
        Searching p.input p.output p.history p.n model computeInfo rounds' s') ∨
      ∃ ok l, iterate model computeInfo kill s = some (.returned ok l) ∧
        p.Answer model computeInfo kill ok l := by
  cases kill with
  | false =>
    rcases h.iterate p.wellformed he with hrun | ⟨ok, l, hit, hv⟩
    · exact Or.inl hrun
    · exact Or.inr ⟨ok, l, hit, answer_of_verdict hv false⟩
  | true =>
    cases hnext : LinkedList.next s.heap s.headEntry with
    | none =>
      -- The list is empty, so `kill` is not read any more.
      have hsame : iterate model computeInfo true s = iterate model computeInfo false s := by
        unfold iterate
        rw [hnext]
      rw [hsame]
      rcases h.iterate p.wellformed he with hrun | ⟨ok, l, hit, hv⟩
      · exact Or.inl hrun
      · exact Or.inr ⟨ok, l, hit, answer_of_verdict hv true⟩
    | some q =>
      have hit : iterate model computeInfo true s = some (.returned false s.longest) := by
        unfold iterate
        rw [hnext]
        rfl
      obtain ⟨c, hr, hinv, -⟩ := h
      refine Or.inr ⟨false, _, hit, fun seq hseq => ?_, fun hno => Bool.noConfusion hno, fun hno => Bool.noConfusion hno⟩
      rw [hr.longest] at hseq
      exact isPartial_of_table hinv.longest hseq

/-- An answer of a search stays one when the search is killed afterwards. -/
theorem Part.Answer.killed (h : p.Answer model computeInfo kill ok l) : p.Answer model computeInfo true ok l :=
  ⟨h.sound, h.yes, fun hno => Bool.noConfusion hno⟩

end Answers

/-! ### The invariant -/

/-- What a goroutine stands for, with a weight that bounds what it has left to do. -/
def Goroutine.Tracks (model : Filled I O S) (computeInfo kill : Bool) (p : Part I O) (weight : Nat) :
    Goroutine I O S → Prop
  | .running s => ∃ rounds, Searching p.input p.output p.history p.n model computeInfo rounds s ∧ rounds + 2 ≤ weight
  | .returned ok l => p.Answer model computeInfo kill ok l ∧ 1 ≤ weight
  | .finished => True
  | .panicked => False

theorem Goroutine.Tracks.killed {model : Filled I O S} {computeInfo kill : Bool} {p : Part I O} {weight : Nat}
    {g : Goroutine I O S} (h : g.Tracks model computeInfo kill p weight) : g.Tracks model computeInfo true p weight := by
  cases g with
  | running s => exact h
  | returned ok l => exact ⟨h.1.killed, h.2⟩
  | finished => trivial
  | panicked => exact h.elim

structure CheckInv (model : Filled I O S) (parts : List (Part I O)) (computeInfo : Bool) (timeout : Int)
    (weights : List Nat) (c : Check I O S) : Prop where
  length : c.goroutines.length = parts.length
  weights_length : weights.length = parts.length
  longest_length : c.longest.length = parts.length
  goroutine : ∀ (i : Nat) (p : Part I O) (g : Goroutine I O S) (w : Nat), parts[i]? = some p →
    c.goroutines[i]? = some g → weights[i]? = some w → g.Tracks model computeInfo c.kill p w
  longest : ∀ (i : Nat) (p : Part I O) (l : List (Option (List Int))), parts[i]? = some p →
    c.longest[i]? = some (some l) → ∃ ok, p.Answer model computeInfo c.kill ok l
  written : ∀ i : Nat, c.goroutines[i]? = some .finished → ∃ l, c.longest[i]? = some (some l)
  counted : c.count + c.results.length = c.goroutines.countP Check.isFinished
  inLoop : c.phase = .loop → c.kill = false ∧ c.timedOut = false
  waiting : c.phase ≠ .returned → parts ≠ [] → c.count < parts.length
  drained : c.phase = .drain → c.kill = true
  collected : c.phase = .returned → computeInfo = true → parts.length ≤ c.count
  killed : c.kill = true → c.timedOut = true ∨ computeInfo = false
  timer : c.timedOut = true → 0 < timeout
  refuted : c.ok = false → ∃ p ∈ parts, ¬ p.Eliminable model
  answers : c.kill = false → false ∈ c.results → ∃ p ∈ parts, ¬ p.Eliminable model
  reported : c.kill = false → ∀ (i : Nat) (p : Part I O), c.goroutines[i]? = some .finished → parts[i]? = some p →
    ¬ p.Eliminable model → c.ok = false ∨ false ∈ c.results
  left : c.phase ≠ .loop → c.ok = true → c.timedOut = false → ∀ p ∈ parts, p.Eliminable model

/-- A smaller number in the place of one. -/
theorem sum_set_lt {l : List Nat} {k x y : Nat} (h : l[k]? = some x) (hlt : y < x) : (l.set k y).sum < l.sum := by
  induction l generalizing k with
  | nil => cases h
  | cons z l ih =>
    cases k with
    | zero =>
      cases h
      rw [List.set_cons_zero, List.sum_cons, List.sum_cons]
      omega
    | succ k =>
      rw [List.set_cons_succ, List.sum_cons, List.sum_cons]
      exact Nat.add_lt_add_left (ih h) z

/-- What is left to do for all parties. -/
def measure (weights : List Nat) (c : Check I O S) : Nat :=
  weights.sum + (c.goroutines.length - c.count) + if c.phase = .loop then 1 else 0

section Invariant
variable {model : Filled I O S} {parts : List (Part I O)} {computeInfo : Bool} {timeout : Int} {weights : List Nat}
  {c c' : Check I O S}

theorem CheckInv.part (h : CheckInv model parts computeInfo timeout weights c) {i : Nat} {g : Goroutine I O S}
    (hg : c.goroutines[i]? = some g) : ∃ p w, parts[i]? = some p ∧ weights[i]? = some w := by
  have hi := (List.getElem?_eq_some_iff.mp hg).1
  have hp : i < parts.length := h.length ▸ hi
  have hw : i < weights.length := h.weights_length ▸ hp
  exact ⟨parts[i], weights[i], List.getElem?_eq_getElem hp, List.getElem?_eq_getElem hw⟩

/-- A result in the channel has not been counted. -/
theorem CheckInv.count_lt (h : CheckInv model parts computeInfo timeout weights c) {result : Bool}
    {results : List Bool} (hres : c.results = result :: results) : c.count < c.goroutines.length := by
  have hcounted := h.counted
  have hle : c.goroutines.countP Check.isFinished ≤ c.goroutines.length := List.countP_le_length
  rw [hres, List.length_cons] at hcounted
  omega

/-- A goroutine that is not at its end before or after its step. -/
theorem CheckInv.setGoroutine (h : CheckInv model parts computeInfo timeout weights c) {i w w' : Nat}
    {g g' : Goroutine I O S} {p : Part I O} (hg : c.goroutines[i]? = some g) (hp : parts[i]? = some p)
    (hw : weights[i]? = some w) (hlt : w' < w) (hfin : Check.isFinished g = false)
    (hfin' : Check.isFinished g' = false) (ht : g'.Tracks model computeInfo c.kill p w') :
    CheckInv model parts computeInfo timeout (weights.set i w') { c with goroutines := c.goroutines.set i g' } ∧
      measure (weights.set i w') { c with goroutines := c.goroutines.set i g' } < measure weights c := by
  have hold : ∀ j : Nat, (c.goroutines.set i g')[j]? = some .finished → c.goroutines[j]? = some .finished := by
    intro j hj
    rcases getElem?_set_inv hj with ⟨-, rfl⟩ | ⟨-, hj⟩
    · cases hfin'
    · exact hj
  refine ⟨{ h with
    length := by rw [List.length_set]; exact h.length
    weights_length := by rw [List.length_set]; exact h.weights_length
    goroutine := fun j p' g₁ w₁ hp' hg₁ hw₁ => ?_
    written := fun j hj => h.written j (hold j hj)
    counted := ?_
    reported := fun hk j p' hj hp' => h.reported hk j p' (hold j hj) hp' }, ?_⟩
  · rcases getElem?_set_inv hg₁ with ⟨rfl, rfl⟩ | ⟨hne, hg₁⟩
    · rcases getElem?_set_inv hw₁ with ⟨-, rfl⟩ | ⟨hne, -⟩
      · rw [hp] at hp'
        cases hp'
        exact ht
      · exact absurd rfl hne
    · rcases getElem?_set_inv hw₁ with ⟨rfl, -⟩ | ⟨-, hw₁⟩
      · exact absurd rfl hne
      · exact h.goroutine j p' g₁ w₁ hp' hg₁ hw₁
  · have hcount := countP_set_add Check.isFinished g' hg
    rw [hfin, hfin'] at hcount
    exact h.counted.trans hcount.symm
  · have hsum := sum_set_lt hw hlt
    unfold measure
    dsimp only
    rw [List.length_set]
    omega

theorem CheckInv.send (h : CheckInv model parts computeInfo timeout weights c) {i : Nat} {ok : Bool}
    {l : List (Option (List Int))} (hg : c.goroutines[i]? = some (.returned ok l)) :
    ∃ weights', CheckInv model parts computeInfo timeout weights'
        { c with
          goroutines := c.goroutines.set i .finished
          longest := c.longest.set i (some l)
          results := c.results ++ [ok] } ∧
      measure weights'
        { c with
          goroutines := c.goroutines.set i .finished
          longest := c.longest.set i (some l)
          results := c.results ++ [ok] } < measure weights c := by
  obtain ⟨p, w, hp, hw⟩ := h.part hg
  obtain ⟨hanswer, hpos⟩ := h.goroutine i p _ w hp hg hw
  have hi : i < c.longest.length := by
    rw [h.longest_length, ← h.length]
    exact (List.getElem?_eq_some_iff.mp hg).1
  refine ⟨weights.set i 0, { h with
    length := by rw [List.length_set]; exact h.length
    weights_length := by rw [List.length_set]; exact h.weights_length
    longest_length := by rw [List.length_set]; exact h.longest_length
    goroutine := fun j p' g₁ w₁ hp' hg₁ hw₁ => ?_
    longest := fun j p' l' hp' hl' => ?_
    written := fun j hj => ?_
    counted := ?_
    answers := fun hk hmem => ?_
    reported := fun hk j p' hj hp' hno => ?_ }, ?_⟩
  · rcases getElem?_set_inv hg₁ with ⟨-, rfl⟩ | ⟨hne, hg₁⟩
    · trivial
    · rcases getElem?_set_inv hw₁ with ⟨rfl, -⟩ | ⟨-, hw₁⟩
      · exact absurd rfl hne
      · exact h.goroutine j p' g₁ w₁ hp' hg₁ hw₁
  · rcases getElem?_set_inv hl' with ⟨rfl, heq⟩ | ⟨-, hl'⟩
    · cases heq
      rw [hp] at hp'
      cases hp'
      exact ⟨ok, hanswer⟩
    · exact h.longest j p' l' hp' hl'
  · rcases getElem?_set_inv hj with ⟨rfl, -⟩ | ⟨hne, hj⟩
    · exact ⟨l, List.getElem?_set_self hi⟩
    · obtain ⟨l', hl'⟩ := h.written j hj
      exact ⟨l', by rw [List.getElem?_set_ne (Ne.symm hne)]; exact hl'⟩
  · have hcount := countP_set_add Check.isFinished .finished hg
    have hcounted := h.counted
    simp only [Check.isFinished, Bool.toNat_false, Bool.toNat_true, Nat.add_zero] at hcount
    dsimp only
    rw [hcount, List.length_append, List.length_singleton]
    omega
  · rcases List.mem_append.mp hmem with hmem | hmem
    · exact h.answers hk hmem
    · refine ⟨p, List.mem_of_getElem? hp, fun hel => ?_⟩
      have hyes := (hanswer.verdict hk).ok_iff.mpr hel
      rw [← List.mem_singleton.mp hmem] at hyes
      cases hyes
  · rcases getElem?_set_inv hj with ⟨rfl, -⟩ | ⟨-, hj⟩
    · rw [hp] at hp'
      cases hp'
      refine Or.inr (List.mem_append_right _ ?_)
      cases hok : ok with
      | false => exact List.mem_singleton_self _
      | true => exact absurd (hanswer.yes hok) hno
    · exact (h.reported hk j p' hj hp' hno).imp_right (List.mem_append_left _)
  · have hsum := sum_set_lt hw hpos
    unfold measure
    dsimp only
    rw [List.length_set]
    omega

/-- A result that is taken from the channel in the loop. -/
theorem CheckInv.refuted_of (h : CheckInv model parts computeInfo timeout weights c) (hphase : c.phase = .loop)
    {result : Bool} {results : List Bool} (hres : c.results = result :: results) (hno : (c.ok && result) = false) :
    ∃ p ∈ parts, ¬ p.Eliminable model := by
  cases hok : c.ok with
  | false => exact h.refuted hok
  | true =>
    rw [hok, Bool.true_and] at hno
    refine h.answers (h.inLoop hphase).1 ?_
    rw [hres, hno]
    exact List.mem_cons_self

/-- The loop is left with an answer that is no. -/
theorem CheckInv.refute (h : CheckInv model parts computeInfo timeout weights c) {result : Bool}
    {results : List Bool} (hphase : c.phase = .loop) (hres : c.results = result :: results)
    (hok : (c.ok && result) = false) (hinfo : computeInfo = false) :
    CheckInv model parts computeInfo timeout weights (Check.leaveLoop computeInfo
      { c with results := results, count := c.count + 1, ok := c.ok && result, kill := true }) := by
  have hleave : (Check.leaveLoop computeInfo
      { c with results := results, count := c.count + 1, ok := c.ok && result, kill := true }).phase = .returned := by
    simp [Check.leaveLoop, hinfo]
  have hcounted := h.counted
  rw [hres, List.length_cons] at hcounted
  exact { h with
    goroutine := fun i p g w hp hg hw => (h.goroutine i p g w hp hg hw).killed
    longest := fun i p l hp hl => by
      obtain ⟨ok, ha⟩ := h.longest i p l hp hl
      exact ⟨ok, ha.killed⟩
    counted := by dsimp only [Check.leaveLoop]; omega
    inLoop := fun hp => by rw [hleave] at hp; cases hp
    waiting := fun hp => absurd hleave hp
    drained := fun _ => rfl
    collected := fun _ hi => by rw [hinfo] at hi; cases hi
    killed := fun _ => Or.inr hinfo
    refuted := fun _ => h.refuted_of hphase hres hok
    answers := fun hk => Bool.noConfusion hk
    reported := fun hk => Bool.noConfusion hk
    left := fun _ hyes => by rw [Check.leaveLoop, hok] at hyes; cases hyes }

/-- With no result left and all counted, everything was yes. -/
theorem CheckInv.all_eliminable (h : CheckInv model parts computeInfo timeout weights c) (hphase : c.phase = .loop)
    {result : Bool} {results : List Bool} (hres : c.results = result :: results)
    (hlast : c.goroutines.length ≤ c.count + 1) (hok : (c.ok && result) = true) : ∀ p ∈ parts, p.Eliminable model := by
  have hcounted := h.counted
  have hle : c.goroutines.countP Check.isFinished ≤ c.goroutines.length := List.countP_le_length
  rw [hres, List.length_cons] at hcounted
  obtain rfl : results = [] := List.eq_nil_of_length_eq_zero (by omega)
  have hall := List.countP_eq_length.mp (show c.goroutines.countP Check.isFinished = c.goroutines.length by
    rw [List.length_nil] at hcounted
    omega)
  rw [Bool.and_eq_true] at hok
  intro p hp
  obtain ⟨i, hi, rfl⟩ := List.getElem_of_mem hp
  have hi' : i < c.goroutines.length := h.length ▸ hi
  have hfin : c.goroutines[i]? = some .finished := by
    rw [List.getElem?_eq_getElem hi', Check.eq_finished (hall _ (List.getElem_mem hi'))]
  by_contra hno
  rcases h.reported (h.inLoop hphase).1 i _ hfin (List.getElem?_eq_getElem hi) hno with hfalse | hmem
  · rw [hok.1] at hfalse
    cases hfalse
  · rw [hres, hok.2, List.mem_singleton] at hmem
    cases hmem

/-- The loop is left with the last answer. -/
theorem CheckInv.last (h : CheckInv model parts computeInfo timeout weights c) {result : Bool}
    {results : List Bool} (hphase : c.phase = .loop) (hres : c.results = result :: results)
    (hlast : c.goroutines.length ≤ c.count + 1) :
    CheckInv model parts computeInfo timeout weights (Check.leaveLoop computeInfo
      { c with results := results, count := c.count + 1, ok := c.ok && result }) := by
  have hleave : (Check.leaveLoop computeInfo
      { c with results := results, count := c.count + 1, ok := c.ok && result }).phase = .returned := by
    simp [Check.leaveLoop, hlast]
  have hcounted := h.counted
  rw [hres, List.length_cons] at hcounted
  have hloop := h.inLoop hphase
  exact { h with
    counted := by dsimp only [Check.leaveLoop]; omega
    inLoop := fun hp => by rw [hleave] at hp; cases hp
    waiting := fun hp => absurd hleave hp
    drained := fun hp => by rw [hleave] at hp; cases hp
    collected := fun _ _ => h.length ▸ hlast
    refuted := h.refuted_of hphase hres
    answers := fun hk hmem => h.answers hk (by rw [hres]; exact List.mem_cons_of_mem _ hmem)
    reported := fun hk i p hi hp hno => by
      rcases h.reported hk i p hi hp hno with hfalse | hmem
      · exact Or.inl (by dsimp only [Check.leaveLoop]; rw [hfalse, Bool.false_and])
      · rw [hres] at hmem
        rcases List.mem_cons.mp hmem with heq | hmem
        · exact Or.inl (by dsimp only [Check.leaveLoop]; rw [← heq, Bool.and_false])
        · exact Or.inr hmem
    left := fun _ hyes _ => h.all_eliminable hphase hres hlast hyes }

/-- The loop goes on. -/
theorem CheckInv.more (h : CheckInv model parts computeInfo timeout weights c) {result : Bool}
    {results : List Bool} (hphase : c.phase = .loop) (hres : c.results = result :: results)
    (hmore : c.count + 1 < c.goroutines.length) :
    CheckInv model parts computeInfo timeout weights
      { c with results := results, count := c.count + 1, ok := c.ok && result } := by
  have hcounted := h.counted
  rw [hres, List.length_cons] at hcounted
  exact { h with
    counted := by dsimp only; omega
    waiting := fun _ _ => h.length ▸ hmore
    collected := fun hp => by rw [hphase] at hp; cases hp
    refuted := h.refuted_of hphase hres
    answers := fun hk hmem => h.answers hk (by rw [hres]; exact List.mem_cons_of_mem _ hmem)
    reported := fun hk i p hi hp hno => by
      rcases h.reported hk i p hi hp hno with hfalse | hmem
      · exact Or.inl (by dsimp only; rw [hfalse, Bool.false_and])
      · rw [hres] at hmem
        rcases List.mem_cons.mp hmem with heq | hmem
        · exact Or.inl (by dsimp only; rw [← heq, Bool.and_false])
        · exact Or.inr hmem
    left := fun hp => absurd hphase hp }

/-- A result that is not looked at any more. -/
theorem CheckInv.drain (h : CheckInv model parts computeInfo timeout weights c) {result : Bool}
    {results : List Bool} (hphase : c.phase = .drain) (hres : c.results = result :: results) :
    CheckInv model parts computeInfo timeout weights
      { c with
        results := results
        count := c.count + 1
        phase := if c.count + 1 < c.goroutines.length then .drain else .returned } := by
  have hcounted := h.counted
  rw [hres, List.length_cons] at hcounted
  have hkill := h.drained hphase
  exact { h with
    counted := by dsimp only; omega
    inLoop := fun hp => by
      dsimp only at hp
      split at hp <;> cases hp
    waiting := fun hp _ => by
      dsimp only at hp ⊢
      split at hp
      · rename_i hlt
        exact h.length ▸ hlt
      · exact absurd rfl hp
    drained := fun _ => hkill
    collected := fun hp _ => by
      dsimp only at hp ⊢
      split at hp
      · cases hp
      · rename_i hge
        exact h.length ▸ not_lt.mp hge
    answers := fun hk => by rw [hkill] at hk; cases hk
    reported := fun hk => by rw [hkill] at hk; cases hk
    left := fun _ => h.left (by rw [hphase]; exact fun hp => by cases hp) }

/-- The time is up. -/
theorem CheckInv.expire (h : CheckInv model parts computeInfo timeout weights c) (htimeout : 0 < timeout) :
    CheckInv model parts computeInfo timeout weights
      (Check.leaveLoop computeInfo { c with timedOut := true, kill := true }) := by
  exact { h with
    goroutine := fun i p g w hp hg hw => (h.goroutine i p g w hp hg hw).killed
    longest := fun i p l hp hl => by
      obtain ⟨ok, ha⟩ := h.longest i p l hp hl
      exact ⟨ok, ha.killed⟩
    inLoop := fun hp => by
      dsimp only [Check.leaveLoop] at hp
      split at hp <;> cases hp
    waiting := fun hp _ => by
      dsimp only [Check.leaveLoop] at hp ⊢
      split at hp
      · rename_i hlt
        rw [Bool.and_eq_true, decide_eq_true_eq] at hlt
        exact h.length ▸ hlt.2
      · exact absurd rfl hp
    drained := fun _ => rfl
    collected := fun hp hinfo => by
      dsimp only [Check.leaveLoop] at hp ⊢
      split at hp
      · cases hp
      · rename_i hge
        rw [hinfo, Bool.true_and, decide_eq_true_eq] at hge
        exact h.length ▸ not_lt.mp hge
    killed := fun _ => Or.inl rfl
    timer := fun _ => htimeout
    answers := fun hk => Bool.noConfusion hk
    reported := fun hk => Bool.noConfusion hk
    left := fun _ _ hno => Bool.noConfusion hno }

theorem measure_leaveLoop (hphase : c.phase = .loop) (hlen : c'.goroutines.length = c.goroutines.length)
    (hcount : c.count ≤ c'.count) : measure weights (Check.leaveLoop computeInfo c') < measure weights c := by
  have hleave : (Check.leaveLoop computeInfo c').phase ≠ .loop := by
    unfold Check.leaveLoop
    dsimp only
    split <;> exact fun hp => by cases hp
  unfold measure
  rw [if_neg hleave, if_pos hphase]
  dsimp only [Check.leaveLoop]
  omega

/-- Every step keeps the invariant and brings the end closer. -/
theorem CheckInv.step (h : CheckInv model parts computeInfo timeout weights c) (he : RespectsEqual model)
    (hs : Check.Stepped model computeInfo timeout c c') :
    ∃ weights', CheckInv model parts computeInfo timeout weights' c' ∧ measure weights' c' < measure weights c := by
  cases hs with
  | search hg hit =>
    obtain ⟨p, w, hp, hw⟩ := h.part hg
    obtain ⟨rounds, hsearch, hle⟩ := h.goroutine _ p _ w hp hg hw
    rcases iterate_killable hsearch he c.kill with ⟨s', rounds', hit', hlt, h'⟩ | ⟨ok, l, hit', -⟩
    · rw [hit] at hit'
      cases hit'
      exact ⟨_, h.setGoroutine hg hp hw (show rounds' + 2 < w by omega) rfl rfl ⟨rounds', h', le_rfl⟩⟩
    · rw [hit] at hit'
      cases hit'
  | finish hg hit =>
    obtain ⟨p, w, hp, hw⟩ := h.part hg
    obtain ⟨rounds, hsearch, hle⟩ := h.goroutine _ p _ w hp hg hw
    rcases iterate_killable hsearch he c.kill with ⟨s', rounds', hit', -, -⟩ | ⟨ok, l, hit', ha⟩
    · rw [hit] at hit'
      cases hit'
    · rw [hit] at hit'
      cases hit'
      exact ⟨_, h.setGoroutine hg hp hw (show 1 < w by omega) rfl rfl ⟨ha, le_rfl⟩⟩
  | panic hg hit =>
    obtain ⟨p, w, hp, hw⟩ := h.part hg
    obtain ⟨rounds, hsearch, -⟩ := h.goroutine _ p _ w hp hg hw
    rcases iterate_killable hsearch he c.kill with ⟨s', rounds', hit', -, -⟩ | ⟨ok, l, hit', -⟩
    · rw [hit] at hit'
      cases hit'
    · rw [hit] at hit'
      cases hit'
  | send hg => exact h.send hg
  | refute hphase hres hok hinfo =>
    exact ⟨weights, h.refute hphase hres hok hinfo, measure_leaveLoop hphase rfl (Nat.le_succ _)⟩
  | last hphase hres hlast =>
    exact ⟨weights, h.last hphase hres hlast, measure_leaveLoop hphase rfl (Nat.le_succ _)⟩
  | more hphase hres hmore =>
    refine ⟨weights, h.more hphase hres hmore, ?_⟩
    unfold measure
    dsimp only
    omega
  | drain hphase hres =>
    refine ⟨weights, h.drain hphase hres, ?_⟩
    have hlt := h.count_lt hres
    have hne : (if c.count + 1 < c.goroutines.length then Phase.drain else Phase.returned) ≠ .loop := by
      split <;> exact fun hp => by cases hp
    unfold measure
    dsimp only
    rw [if_neg hne]
    omega
  | timeout hphase htimeout => exact ⟨weights, h.expire htimeout, measure_leaveLoop hphase rfl le_rfl⟩

theorem checkInv_start (parts : List (Part I O)) : CheckInv model parts computeInfo timeout
    (parts.map fun p => cost p.history.length + 2) (startCheck model (parts.map Part.history)) where
  length := by simp [startCheck]
  weights_length := by simp
  longest_length := by simp [startCheck]
  goroutine i p g w hp hg hw := by
    simp only [startCheck, List.map_map, List.getElem?_map, hp, Option.map_some, Option.some.injEq] at hg hw
    subst hg
    subst hw
    exact ⟨_, searching_start p.wellformed, le_rfl⟩
  longest i p l _ hl := by
    simp only [startCheck, List.getElem?_replicate] at hl
    split at hl <;> cases hl
  written i hi := by
    simp only [startCheck, List.map_map, List.getElem?_map, Option.map_eq_some_iff] at hi
    obtain ⟨p, -, hp⟩ := hi
    cases hp
  counted := by
    refine (List.countP_eq_zero.mpr fun g hg => ?_).symm
    obtain ⟨h, -, rfl⟩ := List.mem_map.mp hg
    exact Bool.noConfusion
  inLoop _ := ⟨rfl, rfl⟩
  waiting _ hne := List.length_pos_of_ne_nil hne
  drained hp := by cases hp
  collected hp := by cases hp
  killed hk := by cases hk
  timer ht := by cases ht
  refuted hok := by cases hok
  answers _ hmem := absurd hmem List.not_mem_nil
  reported _ i p hi := by
    simp only [startCheck, List.map_map, List.getElem?_map, Option.map_eq_some_iff] at hi
    obtain ⟨p, -, hp⟩ := hi
    cases hp
  left hp := absurd rfl hp

theorem Check.Reachable.inv (h : Reachable model (parts.map Part.history) computeInfo timeout c)
    (he : RespectsEqual model) : ∃ weights, CheckInv model parts computeInfo timeout weights c := by
  refine Run.Steps.keeps (I := fun c => ∃ weights, CheckInv model parts computeInfo timeout weights c)
    (fun c c' a hc _ hstep => ?_) h ⟨_, checkInv_start parts⟩
  obtain ⟨weights, hc⟩ := hc
  obtain ⟨weights', hc', -⟩ := hc.step he (stepped hstep)
  exact ⟨weights', hc'⟩

end Invariant

/-! ### What `checkParallel` returns -/

section Results
variable {model : Filled I O S} {parts : List (Part I O)} {computeInfo : Bool} {timeout : Int} {c : Check I O S}

/-- In every interleaving: `Ok` means that all partitions are linearizable, `Illegal` that one is not, also if the time is
    up, and `Unknown` is returned only with a timeout. -/
theorem Check.Reachable.result_sound (h : Reachable model (parts.map Part.history) computeInfo timeout c)
    (he : RespectsEqual model) (hphase : c.phase = .returned) :
    match c.result with
    | .ok => ∀ p ∈ parts, p.Eliminable model
    | .illegal => ∃ p ∈ parts, ¬ p.Eliminable model
    | .unknown => 0 < timeout := by
  obtain ⟨weights, hinv⟩ := h.inv he
  unfold result
  cases hok : c.ok with
  | false => exact hinv.refuted hok
  | true =>
    cases ht : c.timedOut with
    | true => exact hinv.timer ht
    | false => exact hinv.left (by rw [hphase]; exact fun hp => by cases hp) hok ht

/-- No goroutine ever panics. -/
theorem Check.Reachable.not_panicked (h : Reachable model (parts.map Part.history) computeInfo timeout c)
    (he : RespectsEqual model) (i : Nat) : c.goroutines[i]? ≠ some .panicked := by
  intro hg
  obtain ⟨weights, hinv⟩ := h.inv he
  obtain ⟨p, w, hp, hw⟩ := hinv.part hg
  exact hinv.goroutine i p _ w hp hg hw

/-- As long as it has not returned, someone other than the timer can take a step. -/
theorem Check.Reachable.progress (h : Reachable model (parts.map Part.history) computeInfo timeout c)
    (he : RespectsEqual model) (hparts : parts ≠ []) (hphase : c.phase ≠ .returned) :
    ∃ a ≠ Action.timeout, ∃ c', step model computeInfo timeout c a = some c' := by
  obtain ⟨weights, hinv⟩ := h.inv he
  by_cases hall : ∀ (i : Nat) (g : Goroutine I O S), c.goroutines[i]? = some g → isFinished g = true
  · -- All answers were sent, and one of them was not counted.
    have hfin : c.goroutines.countP isFinished = c.goroutines.length := List.countP_eq_length.mpr fun g hg => by
      obtain ⟨i, hi, rfl⟩ := List.getElem_of_mem hg
      exact hall i _ (List.getElem?_eq_getElem hi)
    have hwait := hinv.waiting hphase hparts
    have hcounted := hinv.counted
    rw [hfin, hinv.length] at hcounted
    obtain ⟨result, results, hres⟩ := List.exists_cons_of_length_pos (l := c.results) (by omega)
    refine ⟨.receive, Action.noConfusion, ?_⟩
    simp only [step, receive, hres]
    cases hp : c.phase with
    | loop =>
      dsimp only
      split
      · exact ⟨_, rfl⟩
      · split <;> exact ⟨_, rfl⟩
    | drain => exact ⟨_, rfl⟩
    | returned => exact absurd hp hphase
  · push Not at hall
    obtain ⟨i, g, hg, hno⟩ := hall
    refine ⟨.goroutine i, Action.noConfusion, ?_⟩
    simp only [step, runGoroutine, hg]
    cases g with
    | running s =>
      dsimp only
      split <;> exact ⟨_, rfl⟩
    | returned ok l =>
      -- There is room in the channel for one who has not sent.
      have hlt : c.goroutines.countP isFinished < c.goroutines.length := by
        refine lt_of_le_of_ne List.countP_le_length fun heq => hno ?_
        exact List.countP_eq_length.mp heq _ (List.mem_of_getElem? hg)
      have hcounted := hinv.counted
      dsimp only
      rw [if_pos (by omega)]
      exact ⟨_, rfl⟩
    | finished => exact absurd rfl hno
    | panicked => exact absurd hg (h.not_panicked he i)

/-- No run is longer than this, whatever the order of the steps is. -/
def runBound (parts : List (Part I O)) : Nat :=
  (parts.map fun p => cost p.history.length + 2).sum + parts.length + 1

theorem run_length_le (he : RespectsEqual model) {as : List Action}
    (hexec : Run.exec (Check.step model computeInfo timeout) (fun _ _ => True) (startCheck model (parts.map Part.history)) as =
      some c) : as.length ≤ runBound parts := by
  refine Run.exec_length_le (I := fun m c => ∃ weights, CheckInv model parts computeInfo timeout weights c ∧
    measure weights c = m) (fun m s s' a hs _ hstep => ?_) ⟨_, checkInv_start parts, ?_⟩ hexec
  · obtain ⟨weights, hinv, rfl⟩ := hs
    obtain ⟨weights', hinv', hlt⟩ := hinv.step he (Check.stepped hstep)
    exact ⟨_, hlt, weights', hinv', rfl⟩
  · unfold measure runBound startCheck
    simp

/-- With `computeInfo` all goroutines have written their records before the function returns, and they are those of searches
    that were not killed unless the time was up. -/
theorem Check.Reachable.longest_written (h : Reachable model (parts.map Part.history) true timeout c)
    (he : RespectsEqual model) (hphase : c.phase = .returned) {i : Nat} {p : Part I O} (hp : parts[i]? = some p) :
    ∃ ok l, c.longest[i]? = some (some l) ∧ p.Answer model true c.timedOut ok l := by
  obtain ⟨weights, hinv⟩ := h.inv he
  have hcount := hinv.collected hphase rfl
  have hcounted := hinv.counted
  have hle : c.goroutines.countP isFinished ≤ c.goroutines.length := List.countP_le_length
  have hi : i < c.goroutines.length := by
    rw [hinv.length]
    exact (List.getElem?_eq_some_iff.mp hp).1
  have hfin := List.countP_eq_length.mp (show c.goroutines.countP isFinished = c.goroutines.length by
    have := hinv.length
    omega) _ (List.getElem_mem hi)
  obtain ⟨l, hl⟩ := hinv.written i (by
    rw [List.getElem?_eq_getElem hi]
    exact congrArg some (eq_finished hfin))
  obtain ⟨ok, ha⟩ := hinv.longest i p l hp hl
  refine ⟨ok, l, hl, ha.sound, ha.yes, fun hno => ha.verdict ?_⟩
  cases hk : c.kill with
  | false => rfl
  | true =>
    rcases hinv.killed hk with ht | hinfo
    · rw [hno] at ht
      cases ht
    · cases hinfo

/-- Without partitions there is nothing to wait for but the timer. -/
theorem Check.Reachable.of_nil (h : Reachable model [] computeInfo timeout c) :
    c.goroutines = [] ∧ c.results = [] ∧ c.ok = true ∧ (c.phase ≠ .loop → c.timedOut = true ∧ 0 < timeout) := by
  refine Run.Steps.keeps (I := fun c => c.goroutines = [] ∧ c.results = [] ∧ c.ok = true ∧
    (c.phase ≠ .loop → c.timedOut = true ∧ 0 < timeout)) (fun c c' a hc _ hstep => ?_) h
    ⟨rfl, rfl, rfl, fun hp => absurd rfl hp⟩
  obtain ⟨hgs, hres, hok, hleft⟩ := hc
  have nothing : ∀ {i : Nat} {g : Goroutine I O S}, c.goroutines[i]? ≠ some g := by
    intro i g hg
    rw [hgs] at hg
    cases hg
  have silent : ∀ {result : Bool} {results : List Bool}, c.results ≠ result :: results := by
    intro result results hcons
    rw [hres] at hcons
    cases hcons
  cases stepped hstep with
  | search hg => exact absurd hg nothing
  | finish hg => exact absurd hg nothing
  | panic hg => exact absurd hg nothing
  | send hg => exact absurd hg nothing
  | refute _ hcons => exact absurd hcons silent
  | last _ hcons => exact absurd hcons silent
  | more _ hcons => exact absurd hcons silent
  | drain _ hcons => exact absurd hcons silent
  | timeout _ htimeout => exact ⟨hgs, hres, hok, fun _ => ⟨rfl, htimeout⟩⟩

end Results

end DistributedLabs.Porcupine
