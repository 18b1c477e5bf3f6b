import DistributedLabs.Lib.Linearization
import Mathlib.Data.List.Nodup

/-! Histories as lists of calls and returns. An operation can take effect next if its call stands before every return; it
    is then taken out of the history, with its return. The orders in which all operations can be taken out are those that
    respect their precedence, so a history is linearizable if and only if it can be eliminated legally. -/

namespace Elimination

open Linearization

variable {A : Type*}

inductive Event (A : Type*) where
  | call (a : A)
  | ret (a : A)
  deriving DecidableEq, Repr

namespace Event

/-- The operation that is called or returns. -/
def op : Event A → A
  | call a | ret a => a

def isCall : Event A → Bool
  | call _ => true
  | ret _ => false

@[simp] theorem op_call (a : A) : (call a).op = a := rfl

@[simp] theorem op_ret (a : A) : (ret a).op = a := rfl

end Event

open Event

variable [DecidableEq A]

/-- The history without an operation. -/
def without (a : A) (xs : List (Event A)) : List (Event A) := xs.filter fun e => e.op ≠ a

/-- Every operation of the history is called and returns after that, once. -/
def Paired (xs : List (Event A)) : Prop :=
  ∀ a, xs.filter (fun e => e.op = a) = [] ∨ xs.filter (fun e => e.op = a) = [call a, ret a]

/-- The operations of the list can take effect one after the other; `rest` is what is left. -/
inductive Takes : List (Event A) → List A → List (Event A) → Prop where
  | nil (xs : List (Event A)) : Takes xs [] xs
  | cons {front back rest : List (Event A)} {a : A} {l : List A} (hfront : ∀ e ∈ front, e.isCall = true)
      (h : Takes (without a (front ++ call a :: back)) l rest) : Takes (front ++ call a :: back) (a :: l) rest

/-- Operation `b` returned before `a` was called. -/
def Precedes (xs : List (Event A)) (b a : A) : Prop := [ret b, call a].Sublist xs

/-- Every operation of the list comes after those that returned before its call. -/
def Ordered (xs : List (Event A)) (l : List A) : Prop :=
  ∀ front a back, l = front ++ a :: back → ∀ b, Precedes xs b a → b ∈ front

/-! ### Taking one operation out -/

section Without
variable {xs : List (Event A)} {a b c : A}

theorem mem_without {e : Event A} : e ∈ without a xs ↔ e ∈ xs ∧ e.op ≠ a := by
  simp [without]

theorem without_sublist (a : A) (xs : List (Event A)) : (without a xs).Sublist xs := List.filter_sublist

theorem Paired.without (h : Paired xs) (a : A) : Paired (without a xs) := by
  intro b
  unfold Elimination.without
  rw [List.filter_filter]
  by_cases hb : b = a
  · refine Or.inl (List.filter_eq_nil_iff.mpr fun e _ he => ?_)
    simp only [ne_eq, decide_not, Bool.and_eq_true, decide_eq_true_eq, Bool.not_eq_true', decide_eq_false_iff_not] at he
    exact he.2 (he.1.trans hb)
  · have hsame : xs.filter (fun e => decide (e.op = b) && decide (e.op ≠ a)) = xs.filter fun e => e.op = b := by
      refine List.filter_congr fun e _ => ?_
      by_cases he : e.op = b
      · simp [he, hb]
      · simp [he]
    rw [hsame]
    exact h b

theorem Precedes.of_without (h : Precedes (Elimination.without a xs) b c) : Precedes xs b c :=
  h.trans (without_sublist a xs)

theorem Precedes.without (h : Precedes xs b c) (hb : b ≠ a) (hc : c ≠ a) : Precedes (Elimination.without a xs) b c := by
  have hsub := List.Sublist.filter (fun e : Event A => decide (e.op ≠ a)) h
  have hboth : [ret b, call c].filter (fun e => decide (e.op ≠ a)) = [ret b, call c] := by simp [hb, hc]
  rwa [hboth] at hsub

omit [DecidableEq A] in
theorem Precedes.mem (h : Precedes xs b c) : ret b ∈ xs ∧ call c ∈ xs :=
  ⟨h.subset List.mem_cons_self, h.subset (List.mem_cons_of_mem _ List.mem_cons_self)⟩

/-- The events of an operation that has one. -/
theorem Paired.events (h : Paired xs) {e : Event A} (he : e ∈ xs) : xs.filter (fun e' => e'.op = e.op) = [call e.op, ret e.op] := by
  rcases h e.op with hnil | hboth
  · exact absurd (decide_eq_true rfl) (List.filter_eq_nil_iff.mp hnil e he)
  · exact hboth

theorem Paired.call_mem (h : Paired xs) {e : Event A} (he : e ∈ xs) : call e.op ∈ xs := by
  have hmem : call e.op ∈ xs.filter fun e' => e'.op = e.op := by
    rw [h.events he]
    exact List.mem_cons_self
  exact List.mem_of_mem_filter hmem

theorem Paired.ret_mem (h : Paired xs) {e : Event A} (he : e ∈ xs) : ret e.op ∈ xs := by
  have hmem : ret e.op ∈ xs.filter fun e' => e'.op = e.op := by
    rw [h.events he]
    exact List.mem_cons_of_mem _ List.mem_cons_self
  exact List.mem_of_mem_filter hmem

/-- An operation does not return before its own call. -/
theorem Paired.not_precedes_self (h : Paired xs) (a : A) : ¬ Precedes xs a a := by
  intro hp
  have hsub := List.Sublist.filter (fun e : Event A => decide (e.op = a)) hp
  have hevents : xs.filter (fun e => decide (e.op = a)) = [call a, ret a] := h.events hp.mem.2
  rw [hevents] at hsub
  simp only [op_ret, decide_true, List.filter_cons_of_pos, op_call, List.filter_nil] at hsub
  have heq := hsub.eq_of_length rfl
  cases heq

/-- Where an operation is called, with the events before it. -/
theorem Paired.split (h : Paired xs) {front back : List (Event A)} (hxs : xs = front ++ call a :: back) :
    (∀ e ∈ front, e.op ≠ a) ∧ ret a ∈ back := by
  have hevents := h.events (e := call a) (by rw [hxs]; exact List.mem_append_right _ List.mem_cons_self)
  rw [hxs, List.filter_append, List.filter_cons_of_pos (by simp), op_call] at hevents
  have hfront : front.filter (fun e => decide (e.op = a)) = [] := by
    cases hf : front.filter (fun e => decide (e.op = a)) with
    | nil => rfl
    | cons e es =>
      rw [hf] at hevents
      have hlen := congrArg List.length hevents
      simp only [List.cons_append, List.length_cons, List.length_append, List.length_nil] at hlen
      have hback : back.filter (fun e => decide (e.op = a)) = [] := List.eq_nil_of_length_eq_zero (by omega)
      rw [hback] at hevents
      have hes : es = [] := List.eq_nil_of_length_eq_zero (by omega)
      rw [hes] at hevents
      cases hevents
  rw [hfront, List.nil_append, List.cons.injEq] at hevents
  refine ⟨fun e he hop => ?_, ?_⟩
  · exact List.filter_eq_nil_iff.mp hfront e he (decide_eq_true hop)
  · exact List.mem_of_mem_filter (hevents.2 ▸ List.mem_singleton_self _)

theorem Paired.nodup (h : Paired xs) : xs.Nodup := by
  refine List.nodup_iff_count_le_one.mpr fun e => ?_
  by_cases he : e ∈ xs
  · have hcount : xs.count e = (xs.filter fun e' => decide (e'.op = e.op)).count e := by
      rw [List.count_filter]
      exact decide_eq_true rfl
    have hevents : xs.filter (fun e' => decide (e'.op = e.op)) = [call e.op, ret e.op] := h.events he
    rw [hcount, hevents]
    cases e <;> simp
  · rw [List.count_eq_zero_of_not_mem he]
    exact Nat.zero_le 1

/-- An operation is taken out by taking out its call and its return. -/
theorem Paired.without_eq {front mid rest : List (Event A)} (h : Paired (front ++ call a :: (mid ++ ret a :: rest))) :
    Elimination.without a (front ++ call a :: (mid ++ ret a :: rest)) = front ++ (mid ++ rest) := by
  have hevents := h.events (e := call a) (List.mem_append_right _ List.mem_cons_self)
  rw [op_call, List.filter_append, List.filter_cons_of_pos (by simp), List.filter_append,
    List.filter_cons_of_pos (by simp)] at hevents
  have hlen := congrArg List.length hevents
  simp only [List.length_append, List.length_cons, List.length_nil] at hlen
  have hkeep : ∀ ys : List (Event A), (ys.filter fun e => decide (e.op = a)).length = 0 →
      ys.filter (fun e => decide (e.op ≠ a)) = ys := by
    intro ys hys
    refine List.filter_eq_self.mpr fun e he => decide_eq_true fun hop => ?_
    exact List.filter_eq_nil_iff.mp (List.eq_nil_of_length_eq_zero hys) e he (decide_eq_true hop)
  unfold Elimination.without
  rw [List.filter_append, List.filter_cons_of_neg (by simp), List.filter_append, List.filter_cons_of_neg (by simp),
    hkeep front (by omega), hkeep mid (by omega), hkeep rest (by omega)]

end Without

/-! ### Orders of elimination -/

section Orders
variable {xs : List (Event A)} {a : A} {l : List A}

theorem ordered_cons (ha : a ∉ l) :
    Ordered xs (a :: l) ↔ (∀ b, ¬ Precedes xs b a) ∧ Ordered (without a xs) l := by
  constructor
  · intro h
    refine ⟨fun b hb => List.not_mem_nil (h [] a l rfl b hb), fun front c back hl b hb => ?_⟩
    have hmem := h (a :: front) c back (by rw [hl]; rfl) b hb.of_without
    exact (List.mem_cons.mp hmem).resolve_left (mem_without.mp hb.mem.1).2
  · rintro ⟨hfirst, hrest⟩ front c back hl b hb
    cases front with
    | nil =>
      cases hl
      exact absurd hb (hfirst b)
    | cons a' front =>
      cases hl
      by_cases hba : b = a
      · rw [hba]
        exact List.mem_cons_self
      · have hca : c ≠ a := fun heq => ha (heq ▸ List.mem_append_right _ List.mem_cons_self)
        exact List.mem_cons_of_mem _ (hrest front c back rfl b (hb.without hba hca))

/-- The operation that is taken first is called before any other returns. -/
theorem not_precedes_of_calls (h : Paired xs) {front back : List (Event A)} (hxs : xs = front ++ call a :: back)
    (hfront : ∀ e ∈ front, e.isCall = true) (b : A) : ¬ Precedes xs b a := by
  intro hp
  unfold Precedes at hp
  rw [hxs] at hp
  obtain ⟨hop, -⟩ := h.split hxs
  -- The call of `a` is not in front, so its return would have to be.
  obtain ⟨l₁, l₂, heq, h₁, h₂⟩ := List.sublist_append_iff.mp hp
  cases l₁ with
  | nil =>
    cases heq
    have hsub : [ret b, call a].Sublist back := by
      cases h₂ with
      | cons _ h => exact h
    have hcount := h.events (e := call a) (by rw [hxs]; exact List.mem_append_right _ List.mem_cons_self)
    rw [hxs, List.filter_append, List.filter_cons_of_pos (by simp)] at hcount
    have hnil : front.filter (fun e => decide (e.op = (call a).op)) = [] :=
      List.filter_eq_nil_iff.mpr fun e he hop' => hop e he (of_decide_eq_true hop')
    rw [hnil, List.nil_append, List.cons.injEq] at hcount
    have hmem : call a ∈ back.filter fun e => decide (e.op = (call a).op) :=
      List.mem_filter.mpr ⟨hsub.subset (List.mem_cons_of_mem _ List.mem_cons_self), decide_eq_true rfl⟩
    rw [hcount.2, List.mem_singleton] at hmem
    cases hmem
  | cons e l₁ =>
    obtain ⟨rfl, -⟩ := List.cons.inj heq
    have hret := hfront _ (h₁.subset List.mem_cons_self)
    cases hret

theorem Takes.mem_call {rest : List (Event A)} (h : Takes xs l rest) : ∀ a ∈ l, call a ∈ xs := by
  induction h with
  | nil => exact fun a ha => absurd ha List.not_mem_nil
  | cons hfront _ ih =>
    intro b hb
    rcases List.mem_cons.mp hb with rfl | hb
    · exact List.mem_append_right _ List.mem_cons_self
    · exact (mem_without.mp (ih b hb)).1

theorem filter_notMem_cons (a : A) (l : List A) (xs : List (Event A)) :
    xs.filter (fun e => e.op ∉ a :: l) = (without a xs).filter fun e => e.op ∉ l := by
  unfold without
  rw [List.filter_filter]
  refine List.filter_congr fun e _ => ?_
  by_cases he : e.op = a <;> by_cases hl : e.op ∈ l <;> simp [he, hl]

/-- What can be taken out one after the other: operations of the history, each once, in an order that respects their
    precedence in the whole history. -/
theorem takes_iff (h : Paired xs) {rest : List (Event A)} : Takes xs l rest ↔
    l.Nodup ∧ (∀ a ∈ l, call a ∈ xs) ∧ Ordered xs l ∧ rest = xs.filter fun e => e.op ∉ l := by
  constructor
  · intro ht
    induction ht with
    | nil xs =>
      refine ⟨List.nodup_nil, fun a ha => absurd ha List.not_mem_nil, fun front a back hl => ?_, ?_⟩
      · cases front <;> cases hl
      · simp
    | @cons front back rest a l hfront ht ih =>
      obtain ⟨hnodup, hmem, hordered, hrest⟩ := ih (h.without a)
      have ha : a ∉ l := fun hal => (mem_without.mp (hmem a hal)).2 rfl
      refine ⟨List.nodup_cons.mpr ⟨ha, hnodup⟩, (Takes.cons hfront ht).mem_call, ?_, ?_⟩
      · exact (ordered_cons ha).mpr ⟨not_precedes_of_calls h rfl hfront, hordered⟩
      · rw [filter_notMem_cons]
        exact hrest
  · rintro ⟨hnodup, hmem, hordered, rfl⟩
    induction l generalizing xs with
    | nil =>
      have hall : xs.filter (fun e => e.op ∉ ([] : List A)) = xs := by simp
      rw [hall]
      exact .nil xs
    | cons a l ih =>
      obtain ⟨ha, hnodup⟩ := List.nodup_cons.mp hnodup
      obtain ⟨hfirst, hordered⟩ := (ordered_cons ha).mp hordered
      obtain ⟨front, back, rfl⟩ := List.append_of_mem (hmem a List.mem_cons_self)
      rw [filter_notMem_cons]
      refine .cons (fun e he => ?_) (ih (h.without a) hnodup (fun b hb => ?_) hordered)
      · cases e with
        | call => rfl
        | ret b =>
          refine absurd ?_ (hfirst b)
          exact List.Sublist.append (List.singleton_sublist.mpr he) (List.singleton_sublist.mpr List.mem_cons_self)
      · refine mem_without.mpr ⟨hmem b (List.mem_cons_of_mem _ hb), fun hba => ha ?_⟩
        rw [← hba]
        exact hb

/-- The operations left over are those that were not taken. -/
theorem Takes.rest_eq (h : Paired xs) {rest : List (Event A)} (ht : Takes xs l rest) :
    rest = xs.filter fun e => e.op ∉ l := ((takes_iff h).mp ht).2.2.2

end Orders

/-! ### Other names for the operations -/

section Rename
variable {B S T : Type*} [LinearOrder T] (f : A → B)

omit [DecidableEq A] in
theorem legal_map (step : S → B → Bool × S) {s : S} {l : List A} :
    Legal (fun s a => step s (f a)) s l ↔ Legal step s (l.map f) := by
  induction l generalizing s with
  | nil => exact Iff.rfl
  | cons a l ih => exact and_congr_right fun _ => ih

omit [DecidableEq A] in
/-- A history may be given by the names of its operations, of which several may be the same. -/
theorem linearizable_map {call' ret' : B → T} {legal : List B → Prop} {h : List A} :
    Linearizable (call' ∘ f) (ret' ∘ f) (fun l => legal (l.map f)) h ↔ Linearizable call' ret' legal (h.map f) := by
  constructor
  · rintro ⟨l, hperm, hres, hlegal⟩
    exact ⟨l.map f, hperm.map f, List.pairwise_map.mpr hres, hlegal⟩
  · rintro ⟨l, hperm, hres, hlegal⟩
    -- The operations of the order are named in the same way as those of the history.
    have hnames : List.Forall₂ (fun b a => b = f a) (h.map f) h :=
      List.forall₂_map_left_iff.mpr (List.forall₂_same.mpr fun _ _ => rfl)
    obtain ⟨l', hl', hperm'⟩ := List.perm_comp_forall₂ hperm hnames
    have heq : l = l'.map f := by
      clear hperm hres hlegal hperm'
      induction hl' with
      | nil => rfl
      | cons hb _ ih => rw [List.map_cons, hb, ih]
    subst heq
    exact ⟨l', hperm', List.pairwise_map.mp hres, hlegal⟩

end Rename

/-! ### Linearizability -/

section History
variable {T : Type*} [LinearOrder T] {call' ret' : A → T} {xs : List (Event A)} {ops : List A}

/-- An order in which all operations are taken out is one of all operations of the history that respects their
    precedence, if the events are in the order of their times. -/
theorem Takes.linearizes (h : Paired xs) (hops : ∀ a, a ∈ ops ↔ call a ∈ xs) (hnodup : ops.Nodup)
    (hprec : ∀ a ∈ ops, ∀ b ∈ ops, ret' b < call' a → Precedes xs b a) {l : List A} (ht : Takes xs l []) :
    l.Perm ops ∧ Respects call' ret' l := by
  obtain ⟨hl, hmem, hordered, hrest⟩ := (takes_iff h).mp ht
  have hperm : l.Perm ops := by
    refine (List.perm_ext_iff_of_nodup hl hnodup).mpr fun a => ⟨fun ha => (hops a).mpr (hmem a ha), fun ha => ?_⟩
    by_contra hno
    have hleft : call a ∈ xs.filter fun e => e.op ∉ l :=
      List.mem_filter.mpr ⟨(hops a).mp ha, decide_eq_true hno⟩
    rw [← hrest] at hleft
    cases hleft
  refine ⟨hperm, List.pairwise_iff_getElem.mpr fun i j hi hj hij hlt => ?_⟩
  have hb := hordered (l.take i) l[i] (l.drop (i + 1)) (by simp) l[j]
    (hprec _ (hperm.mem_iff.mp (List.getElem_mem hi)) _ (hperm.mem_iff.mp (List.getElem_mem hj)) hlt)
  obtain ⟨k, hk, heq⟩ := List.getElem_of_mem hb
  rw [List.length_take] at hk
  rw [List.getElem_take] at heq
  have hkj := (List.Nodup.getElem_inj_iff hl).mp heq
  omega

/-- A history whose events are in the order of their times is linearizable if and only if its operations can be taken
    out in a legal order. -/
theorem linearizable_iff (h : Paired xs) (hops : ∀ a, a ∈ ops ↔ call a ∈ xs) (hnodup : ops.Nodup)
    (hprec : ∀ a ∈ ops, ∀ b ∈ ops, Precedes xs b a ↔ ret' b < call' a) {legal : List A → Prop} :
    Linearizable call' ret' legal ops ↔ ∃ l, Takes xs l [] ∧ legal l := by
  constructor
  · rintro ⟨l, hperm, hres, hlegal⟩
    refine ⟨l, (takes_iff h).mpr ⟨hperm.nodup_iff.mpr hnodup, fun a ha => (hops a).mp (hperm.mem_iff.mp ha), ?_, ?_⟩, hlegal⟩
    · intro front a back hl b hb
      have hbops : b ∈ ops := (hops b).mpr (h.call_mem hb.mem.1)
      have hbl := hperm.mem_iff.mpr hbops
      have haops : a ∈ ops := hperm.mem_iff.mp (by rw [hl]; exact List.mem_append_right _ List.mem_cons_self)
      have hlt := (hprec a haops b hbops).mp hb
      rw [hl] at hbl hres
      rcases List.mem_append.mp hbl with hfront | hback
      · exact hfront
      · obtain ⟨-, hres, -⟩ := List.pairwise_append.mp hres
        rcases List.mem_cons.mp hback with rfl | hback
        · exact absurd hb (h.not_precedes_self b)
        · exact absurd hlt ((List.pairwise_cons.mp hres).1 b hback)
    · refine (List.filter_eq_nil_iff.mpr fun e he hno => ?_).symm
      exact of_decide_eq_true hno (hperm.mem_iff.mpr ((hops e.op).mpr (h.call_mem he)))
  · rintro ⟨l, ht, hlegal⟩
    obtain ⟨hperm, hres⟩ := ht.linearizes h hops hnodup fun a ha b hb => (hprec a ha b hb).mpr
    exact ⟨l, hperm, hres, hlegal⟩

end History

end Elimination
