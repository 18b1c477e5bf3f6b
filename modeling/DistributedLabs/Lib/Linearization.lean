import Mathlib.Data.List.Perm.Basic
import Mathlib.Logic.Function.Basic
import Mathlib.Order.WithBot

/-! Linearizability of a history of operations, each of which takes effect between its call and its return. An object
    that is a family of independent objects, one for each key, is linearizable if and only if every member is: the
    orders of the members are merged by the earliest points at which their operations can take effect. -/

namespace Linearization

variable {A S K T : Type*}

/-! ### Sequential objects -/

/-- Every operation of the list, run one after the other, is accepted by the object. -/
def Legal (step : S → A → Bool × S) : S → List A → Prop
  | _, [] => True
  | s, a :: l => (step s a).1 = true ∧ Legal step (step s a).2 l

section Family
variable [DecidableEq K] (key : A → K) (step : S → A → Bool × S)

/-- A family of objects: an operation acts on the member of its key. -/
def family (s : K → S) (a : A) : Bool × (K → S) :=
  ((step (s (key a)) a).1, Function.update s (key a) (step (s (key a)) a).2)

/-- The operations of a key, in the order of the list. -/
def ofKey (k : K) (l : List A) : List A := l.filter fun a => key a = k

variable {key step}

theorem family_self (s : K → S) (a : A) : (family key step s a).2 (key a) = (step (s (key a)) a).2 :=
  Function.update_self _ _ _

theorem family_ne (s : K → S) {a : A} {k : K} (hk : key a ≠ k) : (family key step s a).2 k = s k :=
  Function.update_of_ne (Ne.symm hk) _ _

theorem ofKey_cons_self (a : A) (l : List A) : ofKey key (key a) (a :: l) = a :: ofKey key (key a) l :=
  List.filter_cons_of_pos (decide_eq_true rfl)

theorem ofKey_cons_ne {k : K} {a : A} (hk : key a ≠ k) (l : List A) : ofKey key k (a :: l) = ofKey key k l :=
  List.filter_cons_of_neg (by simpa using hk)

/-- A list is legal for the family if the operations of each key are legal for its member. -/
theorem legal_family {s : K → S} {l : List A} :
    Legal (family key step) s l ↔ ∀ k, Legal step (s k) (ofKey key k l) := by
  induction l generalizing s with
  | nil => exact ⟨fun _ _ => trivial, fun _ => trivial⟩
  | cons a l ih =>
    constructor
    · rintro ⟨hok, hrest⟩ k
      have hk := ih.mp hrest k
      by_cases hkey : key a = k
      · subst hkey
        rw [ofKey_cons_self]
        rw [family_self] at hk
        exact ⟨hok, hk⟩
      · rw [ofKey_cons_ne hkey]
        rwa [family_ne s hkey] at hk
    · intro h
      have hself := h (key a)
      rw [ofKey_cons_self] at hself
      refine ⟨hself.1, ih.mpr fun k => ?_⟩
      by_cases hkey : key a = k
      · subst hkey
        rw [family_self]
        exact hself.2
      · have hk := h k
        rw [ofKey_cons_ne hkey] at hk
        rwa [family_ne s hkey]

/-- The operations of all keys together are the whole list. -/
theorem flatMap_ofKey {ks : List K} (hks : ks.Nodup) {h : List A} (hmem : ∀ a ∈ h, key a ∈ ks) :
    (ks.flatMap fun k => ofKey key k h).Perm h := by
  induction ks generalizing h with
  | nil =>
    obtain rfl : h = [] := List.eq_nil_iff_forall_not_mem.mpr fun a ha => List.not_mem_nil (hmem a ha)
    exact .refl _
  | cons k ks ih =>
    obtain ⟨hk, hks⟩ := List.nodup_cons.mp hks
    -- The other keys see only the operations that are not of key `k`.
    have hothers : (ks.flatMap fun k' => ofKey key k' h) =
        ks.flatMap fun k' => ofKey key k' (h.filter fun a => !decide (key a = k)) := by
      refine List.flatMap_congr fun k' hk' => ?_
      unfold ofKey
      rw [List.filter_filter]
      refine List.filter_congr fun a _ => ?_
      by_cases hkey : key a = k'
      · have hne : k' ≠ k := fun h => hk (h ▸ hk')
        simp [hkey, hne]
      · simp [hkey]
    rw [List.flatMap_cons, hothers]
    refine ((ih hks fun a ha => ?_).append_left _).trans (List.filter_append_perm _ h)
    obtain ⟨ha, hne⟩ := List.mem_filter.mp ha
    exact (List.mem_cons.mp (hmem a ha)).resolve_left (by simpa using hne)

end Family

/-! ### Histories -/

section History
variable [LinearOrder T] (call ret : A → T)

/-- No operation stands before one that returned before its call. -/
def Respects (l : List A) : Prop := l.Pairwise fun a b => ¬ ret b < call a

/-- Some order of all operations respects their precedence and is legal. -/
def Linearizable (legal : List A → Prop) (h : List A) : Prop := ∃ l, l.Perm h ∧ Respects call ret l ∧ legal l

/-- Each operation with the earliest point at which it can take effect in this order, from the point `p` on: the
    latest call so far. -/
def points : WithBot T → List A → List (WithBot T × A)
  | _, [] => []
  | p, a :: l => (max p (call a), a) :: points (max p (call a)) l

variable {call ret}

theorem map_points (p : WithBot T) (l : List A) : (points call p l).map Prod.snd = l := by
  induction l generalizing p with
  | nil => rfl
  | cons a l ih => rw [points, List.map_cons, ih]

/-- A point is no earlier than the start and the call. -/
theorem le_of_mem_points {p : WithBot T} {l : List A} {x : WithBot T × A} (hx : x ∈ points call p l) :
    p ≤ x.1 ∧ (call x.2 : WithBot T) ≤ x.1 := by
  induction l generalizing p with
  | nil => cases hx
  | cons a l ih =>
    rcases List.mem_cons.mp hx with rfl | hx
    · exact ⟨le_max_left _ _, le_max_right _ _⟩
    · exact ⟨(le_max_left _ _).trans (ih hx).1, (ih hx).2⟩

theorem points_sorted (p : WithBot T) (l : List A) : (points call p l).Pairwise fun x y => x.1 ≤ y.1 := by
  induction l generalizing p with
  | nil => exact .nil
  | cons a l ih => exact List.pairwise_cons.mpr ⟨fun y hy => (le_of_mem_points hy).1, ih _⟩

/-- In an order that respects precedence a point is no later than the return. -/
theorem Respects.point_le {l : List A} (hl : Respects call ret l) (hcall : ∀ a ∈ l, call a ≤ ret a) {p : WithBot T}
    (hp : ∀ a ∈ l, p ≤ ret a) {x : WithBot T × A} (hx : x ∈ points call p l) : x.1 ≤ ret x.2 := by
  induction l generalizing p with
  | nil => cases hx
  | cons a l ih =>
    obtain ⟨ha, hl⟩ := List.pairwise_cons.mp hl
    rcases List.mem_cons.mp hx with rfl | hx
    · exact max_le (hp a List.mem_cons_self) (WithBot.coe_le_coe.mpr (hcall a List.mem_cons_self))
    · refine ih hl (fun b hb => hcall b (List.mem_cons_of_mem _ hb)) (fun b hb => ?_) hx
      exact max_le (hp b (List.mem_cons_of_mem _ hb)) (WithBot.coe_le_coe.mpr (not_lt.mp (ha b hb)))

/-! ### Merging orders -/

variable (call) in
/-- Orders merged by their points. -/
def merge (lists : List (List A)) : List A :=
  ((lists.flatMap (points call ⊥)).mergeSort fun x y => decide (x.1 ≤ y.1)).map Prod.snd

theorem merge_perm (lists : List (List A)) : (merge call lists).Perm lists.flatten := by
  refine ((List.mergeSort_perm _ _).map _).trans ?_
  rw [List.map_flatMap, List.flatMap_congr (fun l _ => map_points ⊥ l), List.flatMap_id']

section Sorted

theorem decide_le_trans (a b c : WithBot T × A) (hab : decide (a.1 ≤ b.1) = true) (hbc : decide (b.1 ≤ c.1) = true) :
    decide (a.1 ≤ c.1) = true :=
  decide_eq_true (le_trans (of_decide_eq_true hab) (of_decide_eq_true hbc))

theorem decide_le_total (a b : WithBot T × A) : (decide (a.1 ≤ b.1) || decide (b.1 ≤ a.1)) = true := by
  simpa using le_total a.1 b.1

/-- The merged order keeps each of the orders. -/
theorem sublist_merge {lists : List (List A)} {l : List A} (hl : l ∈ lists) : l.Sublist (merge call lists) := by
  have hsub : (points call ⊥ l).Sublist (lists.flatMap (points call ⊥)) :=
    List.sublist_flatten_of_mem (List.mem_map_of_mem hl)
  have hsorted : (points call ⊥ l).Pairwise fun x y => decide (x.1 ≤ y.1) = true :=
    (points_sorted ⊥ l).imp fun h => decide_eq_true h
  have := (List.sublist_mergeSort decide_le_trans decide_le_total hsorted hsub).map Prod.snd
  rwa [map_points] at this

theorem merge_respects {lists : List (List A)} (hres : ∀ l ∈ lists, Respects call ret l)
    (hcall : ∀ l ∈ lists, ∀ a ∈ l, call a ≤ ret a) : Respects call ret (merge call lists) := by
  have bounds : ∀ {x : WithBot T × A}, x ∈ (lists.flatMap (points call ⊥)).mergeSort (fun x y => decide (x.1 ≤ y.1)) →
      (call x.2 : WithBot T) ≤ x.1 ∧ x.1 ≤ ret x.2 := by
    intro x hx
    obtain ⟨l, hl, hx⟩ := List.mem_flatMap.mp (List.mem_mergeSort.mp hx)
    exact ⟨(le_of_mem_points hx).2, (hres l hl).point_le (hcall l hl) (fun _ _ => bot_le) hx⟩
  refine List.pairwise_map.mpr ((List.pairwise_mergeSort decide_le_trans decide_le_total _).imp_of_mem ?_)
  intro x y hx hy hxy
  have hle := ((bounds hx).1.trans (of_decide_eq_true hxy)).trans (bounds hy).2
  exact not_lt.mpr (WithBot.coe_le_coe.mp hle)

end Sorted

/-! ### Locality -/

section Locality
variable [DecidableEq K] {key : A → K} {step : S → A → Bool × S} {init : S}

variable (call) in
/-- Orders of the operations of each key, put together. -/
theorem ofKey_merge {ks : List K} (hks : ks.Nodup) {h : List A} (hmem : ∀ a ∈ h, key a ∈ ks) {l : K → List A}
    (hl : ∀ k ∈ ks, (l k).Perm (ofKey key k h)) :
    (merge call (ks.map l)).Perm h ∧ ∀ k ∈ ks, ofKey key k (merge call (ks.map l)) = l k := by
  have hperm : (merge call (ks.map l)).Perm h :=
    ((merge_perm _).trans (List.Perm.flatMap_left ks hl)).trans (flatMap_ofKey hks hmem)
  refine ⟨hperm, fun k hk => ?_⟩
  have hsub : (ofKey key k (l k)).Sublist (ofKey key k (merge call (ks.map l))) :=
    (sublist_merge (List.mem_map_of_mem hk)).filter _
  have hself : ofKey key k (l k) = l k :=
    List.filter_eq_self.mpr fun a ha => (List.mem_filter.mp ((hl k hk).mem_iff.mp ha)).2
  rw [hself] at hsub
  exact (hsub.eq_of_length ((hl k hk).trans (hperm.filter _).symm).length_eq).symm

/-- Linearizability is local: a history of a family is linearizable if and only if the operations of each key are. -/
theorem linearizable_family {ks : List K} (hks : ks.Nodup) {h : List A} (hmem : ∀ a ∈ h, key a ∈ ks)
    (hcall : ∀ a ∈ h, call a ≤ ret a) :
    Linearizable call ret (Legal (family key step) fun _ => init) h ↔
      ∀ k ∈ ks, Linearizable call ret (Legal step init) (ofKey key k h) := by
  constructor
  · rintro ⟨l, hperm, hres, hlegal⟩ k -
    exact ⟨ofKey key k l, hperm.filter _, List.Pairwise.sublist List.filter_sublist hres, legal_family.mp hlegal k⟩
  · intro hall
    have hex : ∀ k, ∃ l, k ∈ ks → l.Perm (ofKey key k h) ∧ Respects call ret l ∧ Legal step init l := by
      intro k
      by_cases hk : k ∈ ks
      · obtain ⟨l, hl⟩ := hall k hk
        exact ⟨l, fun _ => hl⟩
      · exact ⟨[], fun hk' => absurd hk' hk⟩
    choose l hl using hex
    obtain ⟨hperm, hkeys⟩ := ofKey_merge call hks hmem fun k hk => (hl k hk).1
    refine ⟨_, hperm, merge_respects ?_ ?_, legal_family.mpr fun k => ?_⟩
    · rintro _ hmem'
      obtain ⟨k, hk, rfl⟩ := List.mem_map.mp hmem'
      exact (hl k hk).2.1
    · rintro _ hmem' a ha
      obtain ⟨k, hk, rfl⟩ := List.mem_map.mp hmem'
      exact hcall a (List.mem_of_mem_filter ((hl k hk).1.mem_iff.mp ha))
    · by_cases hk : k ∈ ks
      · rw [hkeys k hk]
        exact (hl k hk).2.2
      · -- No operation has this key.
        have hnil : ofKey key k (merge call (ks.map l)) = [] := by
          refine List.filter_eq_nil_iff.mpr fun a ha hkey => hk ?_
          exact of_decide_eq_true hkey ▸ hmem a (hperm.mem_iff.mp ha)
        rw [hnil]
        trivial

end Locality

end History

end Linearization
