import DistributedLabs.Lib.Elimination
import Mathlib.Data.Finset.Card
import Mathlib.Tactic.Ring

/-! A depth-first search for a legal order in which all operations of a history can be taken out. The events that are left
    are walked from the first one on: an operation whose call is met is taken if the object accepts it, and at the first
    return the last operation is put back. A set of operations with the state they lead to is entered once only, up to a
    comparison of states. On request the search records, for every operation, a longest order that it was part of. -/

namespace EliminationSearch

open Linearization Elimination Elimination.Event

variable {A S : Type*}

/-- An operation that was taken: the state before it, and the events around its call. -/
structure Frame (A S : Type*) where
  op : A
  state : S
  front : List (Event A)
  back : List (Event A)

def Frame.events (f : Frame A S) : List (Event A) := f.front ++ call f.op :: f.back

/-- The operations taken so far, the first one first; the stack has the last one on top. -/
def taken (stack : List (Frame A S)) : List A := (stack.map Frame.op).reverse

structure Config (A S : Type*) where
  stack : List (Frame A S)
  state : S
  /-- the events that were walked past -/
  front : List (Event A)
  todo : List (Event A)
  seen : List (Finset A × S)
  longest : A → Option (List A)

inductive Outcome (A S : Type*) where
  | running (c : Config A S)
  | found (l : List A)
  | failed (longest : A → Option (List A))
  | stuck

section Machine
variable [DecidableEq A] (step : S → A → Bool × S) (equal : S → S → Bool) (recording : Bool)

def contains (seen : List (Finset A × S)) (T : Finset A) (s : S) : Bool :=
  seen.any fun x => decide (T = x.1) && equal s x.2

/-- The longer one of two orders, the older one if there is no difference. -/
def better (l : List A) : Option (List A) → Option (List A)
  | none => some l
  | some q => if q.length < l.length then some l else some q

def recordAll (l : List A) (longest : A → Option (List A)) : A → Option (List A) :=
  fun i => if i ∈ l then better l (longest i) else longest i

/-- Take the operation that is called. -/
def Config.take (c : Config A S) (a : A) (back : List (Event A)) : Config A S where
  stack := ⟨a, c.state, c.front, back⟩ :: c.stack
  state := (step c.state a).2
  front := []
  todo := without a (c.front ++ call a :: back)
  seen := c.seen ++ [(insert a (taken c.stack).toFinset, (step c.state a).2)]
  longest := c.longest

/-- Walk past the call. -/
def Config.skip (c : Config A S) (a : A) (back : List (Event A)) : Config A S :=
  { c with front := c.front ++ [call a], todo := back }

/-- Put the last operation back and walk past its call. -/
def Config.putBack (c : Config A S) (f : Frame A S) (stack : List (Frame A S)) : Config A S where
  stack := stack
  state := f.state
  front := f.front ++ [call f.op]
  todo := f.back
  seen := c.seen
  longest := if recording then recordAll (taken c.stack) c.longest else c.longest

def advance (c : Config A S) : Outcome A S :=
  match c.todo with
  | call a :: back =>
    if (step c.state a).1 && !contains equal c.seen (insert a (taken c.stack).toFinset) (step c.state a).2 then
      .running (c.take step a back)
    else .running (c.skip a back)
  | ret _ :: _ =>
    match c.stack with
    | [] => .failed c.longest
    | f :: stack => .running (c.putBack recording f stack)
  | [] => if c.front = [] then .found (taken c.stack) else .stuck

end Machine

def start (init : S) (F : List (Event A)) : Config A S := ⟨[], init, [], F, [], fun _ => none⟩

/-! ### The path to a configuration -/

section Path
variable [DecidableEq A] {step : S → A → Bool × S}

/-- The state after a list of operations. -/
def after (step : S → A → Bool × S) (s : S) (l : List A) : S := l.foldl (fun s a => (step s a).2) s

omit [DecidableEq A] in
theorem legal_concat {s : S} {l : List A} {a : A} :
    Legal step s (l ++ [a]) ↔ Legal step s l ∧ (step (after step s l) a).1 = true := by
  induction l generalizing s with
  | nil => exact ⟨fun h => ⟨trivial, h.1⟩, fun h => ⟨h.2, trivial⟩⟩
  | cons b l ih => exact ⟨fun h => ⟨⟨h.1, (ih.mp h.2).1⟩, (ih.mp h.2).2⟩, fun h => ⟨h.1.1, ih.mpr ⟨h.1.2, h.2⟩⟩⟩

theorem takes_concat {xs front back : List (Event A)} {l : List A} {a : A}
    (h : Takes xs l (front ++ call a :: back)) (hfront : ∀ e ∈ front, e.isCall = true) :
    Takes xs (l ++ [a]) (without a (front ++ call a :: back)) := by
  generalize hys : front ++ call a :: back = ys at h
  induction h with
  | nil xs =>
    subst hys
    exact .cons hfront (.nil _)
  | cons hfront' _ ih => exact .cons hfront' (ih hys)

variable (step) in
/-- How the operations of the stack were taken, from the whole history `F` and the state `init`. -/
inductive Path (F : List (Event A)) (init : S) : List (Frame A S) → List (Event A) → S → Prop where
  | root : Path F init [] F init
  | push {stack : List (Frame A S)} {f : Frame A S} (h : Path F init stack f.events f.state)
      (hfront : ∀ e ∈ f.front, e.isCall = true) (hok : (step f.state f.op).1 = true) :
      Path F init (f :: stack) (without f.op f.events) (step f.state f.op).2

variable {F xs : List (Event A)} {init s : S} {stack : List (Frame A S)}

omit [DecidableEq A] in
theorem taken_cons (f : Frame A S) (stack : List (Frame A S)) : taken (f :: stack) = taken stack ++ [f.op] := by
  simp [taken]

omit [DecidableEq A] in
theorem length_taken (stack : List (Frame A S)) : (taken stack).length = stack.length := by simp [taken]

theorem toFinset_taken_cons (f : Frame A S) (stack : List (Frame A S)) :
    (taken (f :: stack)).toFinset = insert f.op (taken stack).toFinset := by
  ext i
  simp [taken_cons]

theorem Path.takes (h : Path step F init stack xs s) : Takes F (taken stack) xs := by
  induction h with
  | root => exact .nil F
  | push _ hfront _ ih =>
    rw [taken_cons]
    exact takes_concat ih hfront

theorem Path.legal (h : Path step F init stack xs s) :
    Legal step init (taken stack) ∧ after step init (taken stack) = s := by
  induction h with
  | root => exact ⟨trivial, rfl⟩
  | @push stack f _ _ hok ih =>
    rw [taken_cons]
    refine ⟨legal_concat.mpr ⟨ih.1, by rw [ih.2]; exact hok⟩, ?_⟩
    rw [← ih.2]
    exact List.foldl_concat ..

theorem Path.paired (h : Path step F init stack xs s) (hF : Paired F) : Paired xs := by
  induction h with
  | root => exact hF
  | push _ _ _ ih => exact ih.without _

theorem Path.events_eq (h : Path step F init stack xs s) (hF : Paired F) :
    xs = F.filter fun e => e.op ∉ (taken stack).toFinset := by
  rw [h.takes.rest_eq hF]
  exact List.filter_congr fun e _ => by simp

theorem Path.card_taken (h : Path step F init stack xs s) (hF : Paired F) :
    (taken stack).toFinset.card = stack.length := by
  rw [List.toFinset_card_of_nodup ((takes_iff hF).mp h.takes).1, length_taken]

end Path

/-! ### What the search has seen -/

section Explored
variable [DecidableEq A] (step : S → A → Bool × S) (recording : Bool) (F : List (Event A))

/-- From these operations and this state no legal order takes everything out, and every one there is was recorded. -/
def Explored (longest : A → Option (List A)) (T : Finset A) (s : S) : Prop :=
  ∀ l rest, Takes (F.filter fun e => e.op ∉ T) l rest → Legal step s l →
    rest ≠ [] ∧ (recording = true → ∀ i, i ∈ T ∨ i ∈ l → ∃ q, longest i = some q ∧ T.card + l.length ≤ q.length)

/-- Every operation that was walked past leads nowhere new. -/
def Tried (longest : A → Option (List A)) (T : Finset A) (s : S) (front : List (Event A)) : Prop :=
  ∀ a, call a ∈ front → (step s a).1 = true → Explored step recording F longest (insert a T) (step s a).2

variable {step recording F} {longest longest' : A → Option (List A)} {T : Finset A} {s t : S}

/-- The records only get longer. -/
def Grows (longest longest' : A → Option (List A)) : Prop :=
  ∀ i q, longest i = some q → ∃ q', longest' i = some q' ∧ q.length ≤ q'.length

theorem Explored.grows (h : Explored step recording F longest T s) (hg : Grows longest longest') :
    Explored step recording F longest' T s := by
  intro l rest ht hl
  obtain ⟨hrest, hrec⟩ := h l rest ht hl
  refine ⟨hrest, fun hr i hi => ?_⟩
  obtain ⟨q, hq, hlen⟩ := hrec hr i hi
  obtain ⟨q', hq', hle⟩ := hg i q hq
  exact ⟨q', hq', hlen.trans hle⟩

theorem Tried.grows {front : List (Event A)} (h : Tried step recording F longest T s front)
    (hg : Grows longest longest') : Tried step recording F longest' T s front :=
  fun a ha hok => (h a ha hok).grows hg

/-- A state that accepts no more than one that is explored is explored. -/
theorem Explored.of_legal (h : Explored step recording F longest T t) (hle : ∀ l, Legal step s l → Legal step t l) :
    Explored step recording F longest T s :=
  fun l rest ht hl => h l rest ht (hle l hl)

theorem tried_nil : Tried step recording F longest T s [] := fun _ ha => absurd ha List.not_mem_nil

theorem Tried.concat {front : List (Event A)} (h : Tried step recording F longest T s front) {a : A}
    (ha : (step s a).1 = true → Explored step recording F longest (insert a T) (step s a).2) :
    Tried step recording F longest T s (front ++ [call a]) := by
  intro b hb hok
  rcases List.mem_append.mp hb with hb | hb
  · exact h b hb hok
  · cases List.mem_singleton.mp hb
    exact ha hok

/-- A return in sight: only the operations walked past could have been taken. -/
theorem Tried.explored {front todo : List (Event A)} {b : A} (h : Tried step recording F longest T s front)
    (hxs : F.filter (fun e => e.op ∉ T) = front ++ ret b :: todo) (hnew : ∀ a, call a ∈ front → a ∉ T)
    (hrec : recording = true → ∀ i ∈ T, ∃ q, longest i = some q ∧ T.card ≤ q.length) :
    Explored step recording F longest T s := by
  intro l rest ht hl
  rw [hxs] at ht
  generalize hys : front ++ ret b :: todo = ys at ht
  cases ht with
  | nil =>
    refine ⟨fun hnil => ?_, fun hr i hi => ?_⟩
    · rw [hnil] at hys
      exact absurd hys (by simp)
    · rw [List.length_nil, Nat.add_zero]
      exact hrec hr i (hi.resolve_right List.not_mem_nil)
  | @cons front' back' _ a l hfront ht =>
    -- The events before the call of `a` are calls, so the return comes after it.
    have ha : call a ∈ front := by
      rcases List.append_eq_append_iff.mp hys with ⟨ws, hfront', hback⟩ | ⟨ws, hfront', hback⟩
      · cases ws with
        | nil => cases hback
        | cons w ws =>
          obtain ⟨rfl, -⟩ := List.cons.inj hback
          have hcall := hfront (ret b) (by rw [hfront']; exact List.mem_append_right _ List.mem_cons_self)
          cases hcall
      · cases ws with
        | nil => cases hback
        | cons w ws =>
          obtain ⟨rfl, -⟩ := List.cons.inj hback
          rw [hfront']
          exact List.mem_append_right _ List.mem_cons_self
    have hchild : F.filter (fun e => e.op ∉ insert a T) = without a (front' ++ call a :: back') := by
      rw [← hys, ← hxs]
      unfold without
      rw [List.filter_filter]
      refine List.filter_congr fun e _ => ?_
      by_cases hea : e.op = a <;> simp [hea]
    rw [← hchild] at ht
    obtain ⟨hrest, hr⟩ := h a ha hl.1 l rest ht hl.2
    refine ⟨hrest, fun hrecording i hi => ?_⟩
    obtain ⟨q, hq, hlen⟩ := hr hrecording i (by
      rcases hi with hi | hi
      · exact Or.inl (Finset.mem_insert_of_mem hi)
      · rcases List.mem_cons.mp hi with rfl | hi
        · exact Or.inl (Finset.mem_insert_self _ _)
        · exact Or.inr hi)
    rw [Finset.card_insert_of_notMem (hnew a ha)] at hlen
    exact ⟨q, hq, by rw [List.length_cons]; omega⟩

omit [DecidableEq A] in
theorem better_spec (l : List A) (old : Option (List A)) : ∃ q, better l old = some q ∧ l.length ≤ q.length ∧
    (∀ q₀, old = some q₀ → q₀.length ≤ q.length) ∧ (q = l ∨ old = some q) := by
  cases old with
  | none => exact ⟨l, rfl, le_rfl, fun _ h => (by cases h), Or.inl rfl⟩
  | some q =>
    unfold better
    dsimp only
    split
    · rename_i hlt
      refine ⟨l, rfl, le_rfl, fun q₀ h => ?_, Or.inl rfl⟩
      cases h
      exact hlt.le
    · rename_i hle
      refine ⟨q, rfl, not_lt.mp hle, fun q₀ h => ?_, Or.inr rfl⟩
      cases h
      exact le_rfl

/-- An order is recorded for the operations that are in it. -/
theorem recordAll_eq_some {l q : List A} {longest : A → Option (List A)} {i : A}
    (h : recordAll l longest i = some q) : i ∈ q ∧ q = l ∨ longest i = some q := by
  unfold recordAll at h
  split at h
  · rename_i hi
    obtain ⟨q', hq', -, -, hold⟩ := better_spec l (longest i)
    rw [hq'] at h
    cases h
    rcases hold with rfl | hold
    · exact Or.inl ⟨hi, rfl⟩
    · exact Or.inr hold
  · exact Or.inr h

theorem grows_recordAll (l : List A) (longest : A → Option (List A)) : Grows longest (recordAll l longest) := by
  intro i q hq
  unfold recordAll
  split
  · obtain ⟨q', hq', -, hle, -⟩ := better_spec l (longest i)
    exact ⟨q', hq', hle q hq⟩
  · exact ⟨q, hq, le_rfl⟩

omit [DecidableEq A] in
theorem grows_refl (longest : A → Option (List A)) : Grows longest longest := fun _ q hq => ⟨q, hq, le_rfl⟩

end Explored

/-! ### The invariant -/

section Invariant
variable [DecidableEq A] (step : S → A → Bool × S) (recording : Bool) (F : List (Event A)) (init : S)

/-- The sets of operations on the way to a configuration, with their states. -/
def nodes : List (Frame A S) → S → List (Finset A × S)
  | [], s => [(∅, s)]
  | f :: stack, s => ((taken (f :: stack)).toFinset, s) :: nodes stack f.state

structure Inv (c : Config A S) : Prop where
  path : Path step F init c.stack (c.front ++ c.todo) c.state
  calls : ∀ e ∈ c.front, e.isCall = true
  tried : Tried step recording F c.longest (taken c.stack).toFinset c.state c.front
  levels : ∀ f stack, f :: stack <:+ c.stack →
    Tried step recording F c.longest (taken stack).toFinset f.state f.front
  seen : ∀ x ∈ c.seen, Explored step recording F c.longest x.1 x.2 ∨ x ∈ nodes c.stack c.state
  longest : ∀ i q, c.longest i = some q → i ∈ q ∧ (∃ rest, Takes F q rest) ∧ Legal step init q

variable {step recording F init} {equal : S → S → Bool} {c : Config A S}

theorem inv_start : Inv step recording F init (start init F) where
  path := .root
  calls _ he := absurd he List.not_mem_nil
  tried := tried_nil
  levels f stack h := by
    have := h.length_le
    simp [start] at this
  seen _ hx := absurd hx List.not_mem_nil
  longest _ _ h := by cases h

theorem card_le_of_mem_nodes (hF : Paired F) {stack : List (Frame A S)} {xs : List (Event A)} {s : S}
    (h : Path step F init stack xs s) {x : Finset A × S} (hx : x ∈ nodes stack s) : x.1.card ≤ stack.length := by
  induction h with
  | root =>
    cases List.mem_singleton.mp hx
    exact le_rfl
  | push h hfront hok ih =>
    rcases List.mem_cons.mp hx with rfl | hx
    · exact ((Path.push h hfront hok).card_taken hF).le
    · exact (ih hx).trans (Nat.le_succ _)

/-- The operations of the events left were not taken. -/
theorem Inv.notMem_taken (h : Inv step recording F init c) (hF : Paired F) {e : Event A}
    (he : e ∈ c.front ++ c.todo) : e.op ∉ (taken c.stack).toFinset := by
  rw [h.path.events_eq hF] at he
  exact of_decide_eq_true (List.mem_filter.mp he).2

theorem Inv.take (h : Inv step recording F init c) {a : A} {back : List (Event A)} (htodo : c.todo = call a :: back)
    (hok : (step c.state a).1 = true) : Inv step recording F init (c.take step a back) where
  path := by
    have hpath := h.path
    rw [htodo] at hpath
    exact .push (f := ⟨a, c.state, c.front, back⟩) hpath h.calls hok
  calls _ he := absurd he List.not_mem_nil
  tried := tried_nil
  levels f stack hsuffix := by
    rcases List.suffix_cons_iff.mp hsuffix with heq | hsuffix
    · cases heq
      exact h.tried
    · exact h.levels f stack hsuffix
  seen x hx := by
    rcases List.mem_append.mp hx with hx | hx
    · exact (h.seen x hx).imp_right (List.mem_cons_of_mem _)
    · refine Or.inr ?_
      rw [List.mem_singleton.mp hx, ← toFinset_taken_cons ⟨a, c.state, c.front, back⟩ c.stack]
      exact List.mem_cons_self
  longest := h.longest

/-- A call is walked past if the object rejects it or the search was there before. -/
theorem Inv.skip (h : Inv step recording F init c) (hF : Paired F)
    (hequal : ∀ s t, equal s t = true → ∀ l, Legal step s l → Legal step t l) {a : A} {back : List (Event A)}
    (htodo : c.todo = call a :: back) (hno : (step c.state a).1 = true →
      contains equal c.seen (insert a (taken c.stack).toFinset) (step c.state a).2 = true) :
    Inv step recording F init (c.skip a back) where
  path := by
    have hpath := h.path
    rw [htodo] at hpath
    unfold Config.skip
    dsimp only
    rw [List.append_assoc, List.singleton_append]
    exact hpath
  calls e he := by
    rcases List.mem_append.mp he with he | he
    · exact h.calls e he
    · rw [List.mem_singleton.mp he]
      rfl
  tried := by
    refine h.tried.concat fun hok => ?_
    obtain ⟨x, hx, hmatch⟩ := List.any_eq_true.mp (hno hok)
    rw [Bool.and_eq_true, decide_eq_true_eq] at hmatch
    obtain ⟨hT, heq⟩ := hmatch
    -- The set is larger than those on the way here, so it was explored.
    rcases h.seen x hx with hexp | hnode
    · rw [← hT] at hexp
      exact hexp.of_legal (hequal _ _ heq)
    · have hcard := card_le_of_mem_nodes hF h.path hnode
      have hnew : a ∉ (taken c.stack).toFinset :=
        h.notMem_taken hF (e := call a) (by rw [htodo]; exact List.mem_append_right _ List.mem_cons_self)
      rw [← hT, Finset.card_insert_of_notMem hnew, h.path.card_taken hF] at hcard
      omega
  levels := h.levels
  seen := h.seen
  longest := h.longest

/-- What is recorded when the last operation is put back. -/
theorem Inv.grows (f : Frame A S) (stack : List (Frame A S)) : Grows c.longest (c.putBack recording f stack).longest := by
  unfold Config.putBack
  dsimp only
  split
  · exact grows_recordAll _ _
  · exact grows_refl _

/-- At a return, everything from here on was explored. -/
theorem Inv.explored (h : Inv step recording F init c) (hF : Paired F) {b : A} {todo : List (Event A)}
    (htodo : c.todo = ret b :: todo) {longest : A → Option (List A)} (hg : Grows c.longest longest)
    (hrec : recording = true → ∀ i ∈ taken c.stack, ∃ q, longest i = some q ∧ (taken c.stack).length ≤ q.length) :
    Explored step recording F longest (taken c.stack).toFinset c.state := by
  have hxs := h.path.events_eq hF
  rw [htodo] at hxs
  refine (h.tried.grows hg).explored hxs.symm (fun a ha => ?_) fun hr i hi => ?_
  · exact h.notMem_taken hF (e := call a) (List.mem_append_left _ ha)
  · rw [h.path.card_taken hF, ← length_taken]
    exact hrec hr i (List.mem_toFinset.mp hi)

theorem Inv.putBack (h : Inv step recording F init c) (hF : Paired F) {b : A} {todo : List (Event A)}
    (htodo : c.todo = ret b :: todo) {f : Frame A S} {stack : List (Frame A S)} (hstack : c.stack = f :: stack) :
    Inv step recording F init (c.putBack recording f stack) := by
  have hg : Grows c.longest (c.putBack recording f stack).longest := Inv.grows f stack
  have hexp : Explored step recording F (c.putBack recording f stack).longest (taken c.stack).toFinset c.state := by
    refine h.explored hF htodo hg fun hr i hi => ?_
    unfold Config.putBack
    dsimp only
    rw [if_pos hr]
    unfold recordAll
    rw [if_pos hi]
    obtain ⟨q, hq, hle, -⟩ := better_spec (taken c.stack) (c.longest i)
    exact ⟨q, hq, hle⟩
  have hpath := h.path
  generalize hys : c.front ++ c.todo = ys at hpath
  generalize hs : c.state = s at hpath
  rw [hstack] at hpath
  cases hpath with
  | push hpath hfront hok =>
    rw [hstack, toFinset_taken_cons, hs] at hexp
    refine ⟨?_, fun e he => ?_, ?_, fun f' stack' hsuffix => ?_, fun x hx => ?_, fun i q hq => ?_⟩
    · unfold Config.putBack
      dsimp only
      rw [List.append_assoc, List.singleton_append]
      exact hpath
    · rcases List.mem_append.mp he with he | he
      · exact hfront e he
      · rw [List.mem_singleton.mp he]
        rfl
    · exact ((h.levels f stack (by rw [hstack])).grows hg).concat fun _ => hexp
    · refine (h.levels f' stack' ?_).grows hg
      rw [hstack]
      exact hsuffix.trans (List.suffix_cons _ _)
    · rcases h.seen x hx with hx | hx
      · exact Or.inl (hx.grows hg)
      · rw [hstack, hs] at hx
        rcases List.mem_cons.mp hx with rfl | hx
        · rw [toFinset_taken_cons]
          exact Or.inl hexp
        · exact Or.inr hx
    · unfold Config.putBack at hq
      dsimp only at hq
      split at hq
      · rcases recordAll_eq_some hq with ⟨hi, rfl⟩ | hq
        · exact ⟨hi, ⟨_, h.path.takes⟩, h.path.legal.1⟩
        · exact h.longest i q hq
      · exact h.longest i q hq

end Invariant

/-! ### Termination -/

section Potential
variable [DecidableEq A] {step : S → A → Bool × S} {recording : Bool} {F : List (Event A)} {init : S} {c : Config A S}

/-- A bound on the steps of a search in so many events. -/
def cost : Nat → Nat
  | 0 => 1
  | 1 => 3
  | m + 2 => (m + 2) * (1 + cost m) + 1

theorem cost_eq (m : Nat) : cost m = m * (1 + cost (m - 2)) + 1 := by
  match m with
  | 0 => rfl
  | 1 => rfl
  | m + 2 => rfl

/-- What is left to do at one level, with so many events, of which `todo` are still to be walked. -/
def level (todo events : Nat) : Nat := todo * (1 + cost (events - 2)) + 1

def potential (c : Config A S) : Nat :=
  level c.todo.length (c.front ++ c.todo).length + (c.stack.map fun f => level f.back.length f.events.length).sum

theorem length_without {xs : List (Event A)} (h : Paired xs) {a : A} (ha : call a ∈ xs) :
    (without a xs).length + 2 = xs.length := by
  have hsplit := List.length_eq_length_filter_add (l := xs) fun e => decide (e.op ≠ a)
  have htwo : (xs.filter fun e => !decide (e.op ≠ a)).length = 2 := by
    have hevents := h.events ha
    rw [op_call] at hevents
    have hsame : xs.filter (fun e => !decide (e.op ≠ a)) = xs.filter fun e => decide (e.op = a) :=
      List.filter_congr fun e _ => by simp
    rw [hsame, hevents]
    rfl
  unfold without
  omega

omit [DecidableEq A] in
theorem level_succ (todo events : Nat) : level (todo + 1) events = level todo events + (1 + cost (events - 2)) := by
  unfold level
  ring

theorem potential_take (h : Inv step recording F init c) (hF : Paired F) {a : A} {back : List (Event A)}
    (htodo : c.todo = call a :: back) : potential (c.take step a back) < potential c := by
  have hlen := length_without (h.path.paired hF) (a := a)
    (by rw [htodo]; exact List.mem_append_right _ List.mem_cons_self)
  rw [htodo] at hlen
  unfold potential Config.take
  dsimp only
  rw [htodo, List.map_cons, List.sum_cons, List.nil_append, List.length_cons, level_succ]
  -- The new level costs as much as was set aside for it.
  have hnew : level (without a (c.front ++ call a :: back)).length (without a (c.front ++ call a :: back)).length =
      cost ((c.front ++ call a :: back).length - 2) := by
    rw [← hlen, Nat.add_sub_cancel]
    exact (cost_eq _).symm
  rw [hnew]
  unfold Frame.events
  dsimp only
  omega

omit [DecidableEq A] in
theorem potential_skip {a : A} {back : List (Event A)} (htodo : c.todo = call a :: back) :
    potential (c.skip a back) < potential c := by
  unfold potential Config.skip
  dsimp only
  rw [htodo, List.append_assoc, List.singleton_append, List.length_cons, level_succ]
  omega

theorem potential_putBack {f : Frame A S} {stack : List (Frame A S)} (hstack : c.stack = f :: stack) :
    potential (c.putBack recording f stack) < potential c := by
  unfold potential Config.putBack
  dsimp only
  rw [hstack, List.map_cons, List.sum_cons, List.append_assoc, List.singleton_append]
  unfold level Frame.events
  omega

end Potential

/-! ### The search -/

section Search
variable [DecidableEq A] {step : S → A → Bool × S} {equal : S → S → Bool} {recording : Bool} {F : List (Event A)}
  {init : S} {c : Config A S}

/-- What a step of the search leads to: a step closer to the end, a legal order of all operations, or the proof that there
    is none, with the longest orders if they are asked for. -/
def Outcome.Good (step : S → A → Bool × S) (recording : Bool) (F : List (Event A)) (init : S) (c : Config A S) :
    Outcome A S → Prop
  | .running c' => Inv step recording F init c' ∧ potential c' < potential c
  | .found l => Takes F l [] ∧ Legal step init l
  | .failed longest => Explored step recording F longest ∅ init ∧
      ∀ i q, longest i = some q → i ∈ q ∧ (∃ rest, Takes F q rest) ∧ Legal step init q
  | .stuck => False

theorem Inv.advance (h : Inv step recording F init c) (hF : Paired F)
    (hequal : ∀ s t, equal s t = true → ∀ l, Legal step s l → Legal step t l) :
    (advance step equal recording c).Good step recording F init c := by
  unfold EliminationSearch.advance
  split
  · rename_i a back htodo
    split
    · rename_i hok
      rw [Bool.and_eq_true] at hok
      exact ⟨h.take htodo hok.1, potential_take h hF htodo⟩
    · rename_i hno
      refine ⟨h.skip hF hequal htodo fun hok => ?_, potential_skip htodo⟩
      rw [hok, Bool.true_and, Bool.not_eq_true', Bool.not_eq_false] at hno
      exact hno
  · rename_i b todo htodo
    split
    · rename_i hstack
      have hexp := h.explored hF htodo (grows_refl _) fun _ i hi => by
        rw [hstack] at hi
        exact absurd hi List.not_mem_nil
      have hinit : c.state = init := by
        rw [← h.path.legal.2, hstack]
        rfl
      rw [hstack, hinit] at hexp
      exact ⟨hexp, h.longest⟩
    · rename_i f stack hstack
      exact ⟨h.putBack hF htodo hstack, potential_putBack hstack⟩
  · rename_i htodo
    split
    · rename_i hfront
      have hpath := h.path
      rw [hfront, htodo] at hpath
      exact ⟨hpath.takes, hpath.legal.1⟩
    · rename_i hfront
      -- The last event of a history is a return.
      obtain ⟨e, front, he⟩ := List.exists_cons_of_ne_nil hfront
      have hret := (h.path.paired hF).ret_mem (e := e) (by rw [he]; exact List.mem_append_left _ List.mem_cons_self)
      rw [htodo, List.append_nil] at hret
      have hcall := h.calls _ hret
      cases hcall

omit [DecidableEq A] in
theorem potential_start (init : S) (F : List (Event A)) : potential (start init F) = cost F.length := by
  unfold potential start
  dsimp only
  rw [List.map_nil, List.sum_nil, Nat.add_zero, List.nil_append]
  exact (cost_eq _).symm

end Search

end EliminationSearch
